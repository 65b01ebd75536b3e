import Polis.Delphi.GuardTheorems

/-!
# Requests to a provider are paid once

A worker records its intent before it submits a batch, and what it learns of the batch after that. Only
the worker that owns the job closes a request; the worker that submitted it may still acknowledge it
when it has lost the job.

Reference: `server/postgres/migrations/000023_create_delphi_foundation.sql`.
-/

namespace Polis.Delphi

open Queue List Function Option

/-! ## The statement -/

/-- How far a request has come. `completed` and `failed` are both the end. -/
def rank : ProviderState → ℕ
  | .intent => 0
  | .submissionUnknown => 1
  | .submitted => 2
  | .completed | .failed => 3

/-- The later rows of a request: it moves forward, and its batch stays. -/
structure Advances (r r' : ProviderRow) : Prop where
  key : (r'.requestId, r'.env, r'.jobId, r'.attemptId) = (r.requestId, r.env, r.jobId, r.attemptId)
  content : (r'.provider, r'.requestDigest) = (r.provider, r.requestDigest)
  state : r'.state = r.state ∨ rank r.state < rank r'.state
  batch : r.providerBatchId.isSome → r'.providerBatchId = r.providerBatchId

/-- No two requests of a job are open. -/
def OneOpen (db : Database) : Prop :=
  ∀ r ∈ db.providerRequests.rows, ∀ r' ∈ db.providerRequests.rows,
    (r.env, r.jobId) = (r'.env, r'.jobId) → r.state.open → r'.state.open → r = r'

/-- The job and the token of a call about a provider request. -/
def Call.provider : Call → Option (JobKey × Token)
  | .providerIntent env job token _ _ _ => some ((env, job), token)
  | .providerUpdate env job token _ _ _ => some ((env, job), token)
  | _ => none

/-- The token owns the job at the time of the call. -/
def Owns (db : Database) (clock : Clock) (k : JobKey) (token : Token) : Prop :=
  ∃ j, db.jobs.find k = some j ∧ pqOwns j token (clock.read 0) = true

/-- The call repeats the intent of a request, and its token owns the job. -/
def RepeatsOwned (db : Database) (clock : Clock) (r : ProviderRow) (env : String) (job : Uuid)
    (token : Token) (provider : Option String) (digest : Option (List UInt8)) : Prop :=
  Owns db clock (env, job) token ∧ Repeats r env job token provider digest

/-- An intent with an id that is in use changes nothing. The owner that repeats the intent gets the
state of the request; every other call is refused. -/
def IntentReused (db : Database) (e : Event) (db' : Database) : Prop :=
  ∀ env job token id provider digest r,
    e.call = .providerIntent env job token (some id) provider digest →
    db.providerRequests.find id = some r → db' = db ∧
      (RepeatsOwned db e.clock r env job token provider digest →
        e.answer = .ok (.provider ⟨false, r.state, id⟩)) ∧
      (¬ RepeatsOwned db e.clock r env job token provider digest → ∃ error, e.answer = .error error)

/-- The token is that of the attempt, as far as it says. -/
def Fits (token : Token) (a : AttemptRow) : Prop :=
  (∀ owner ∈ token.owner, owner = a.ownerId) ∧ (∀ id ∈ token.attempt, id = a.attemptId) ∧
    ∀ epoch ∈ token.epoch, epoch = a.leaseEpoch

/-- The one thing that a call without ownership may do: the attempt that recorded the request records
that it may have submitted it, or that it has. -/
def LateOnly (db : Database) (e : Event) (db' : Database) (token : Token) : Prop :=
  db' = db ∨ ∃ r a s batch, db.providerRequests.find r.requestId = some r ∧
    a ∈ (db.view (r.env, r.jobId)).attempts ∧ a.attemptId = r.attemptId ∧ Fits token a ∧
    (s = .submissionUnknown ∨ s = .submitted) ∧ mayBecome r.state s = true ∧
    e.call = .providerUpdate r.env r.jobId token (some r.requestId) (some (.known s)) batch ∧
    db.updateProviderRequest r.requestId (recordState s batch) = .ok db'

/-! ## Calls about something else -/

variable {db db' : Database} {clock : Clock} {k : JobKey} {j : JobRow} {token : Token}
  {reply : Reply} {env : String} {job : Uuid}
variable {r : ProviderRow}
variable {e : Event}

/-- The requests of every job are as they were. -/
def SameRequests (db db' : Database) : Prop := ∀ k, (db'.view k).requests = (db.view k).requests

namespace SameRequests

theorem refl (db : Database) : SameRequests db db := fun _ => rfl

theorem trans {db₁ : Database} (h : SameRequests db db₁) (h' : SameRequests db₁ db') :
    SameRequests db db' := fun k => (h' k).trans (h k)

theorem of_effect {g : JobView → JobView} (he : Effect db db' k g)
    (h : (g (db.view k)).requests = (db.view k).requests) : SameRequests db db' := by
  intro k'
  by_cases hk : k' = k
  · rw [hk, he.view_self, h]
  · rw [he.view_of_ne hk]

theorem of_ends {j' : JobRow} (h : Ends db db' j j') : SameRequests db db' := by
  intro k
  by_cases hk : k = j.key
  · rw [hk, h.requests]
  · rw [h.others k hk]

theorem of_proven {action : Arg EndAction} (h : Proven db db' clock k token action) :
    SameRequests db db' := by
  cases h with
  | same h => exact h ▸ .refl _
  | confirmed he => exact .of_effect he rfl
  | ended he hj hstage hact ha howns hstate hends =>
    exact (of_effect he rfl).trans (of_ends hends)

theorem of_reaped (h : ReapedProcess db db' clock k) : SameRequests db db' := by
  cases h with
  | same h => exact h ▸ .refl _
  | parked _ _ _ _ _ hends | moved _ _ _ _ _ hends => exact of_ends hends

/-- A job that is new has no requests. -/
theorem of_fresh {v : JobView} (hg : Jobs.Good Set.univ db.view) (hnone : (db.view k).job = none)
    (hv : v.requests = []) (h : db'.view = update db.view k v) : SameRequests db db' := by
  intro k'
  rw [h]
  by_cases hk : k' = k
  · rw [hk, update_self, hv, (hg.ok k).empty hnone]
  · rw [update_of_ne hk]

theorem of_claim {owner attempt : Uuid} {lease : Option ℤ} (hj : (db.view j.key).job = some j)
    (h : claimJob db clock j owner attempt lease = .ok (reply, db')) : SameRequests db db' :=
  of_effect (claimJob_effect hj h).2.2.1 rfl

section

variable (hg : Jobs.Good Set.univ db.view)
include hg

theorem of_reapEach {ids : List Uuid} {replies : List Reply}
    (h : reapEach (pqReapOne · · env ·) db clock ids = .ok (replies, db')) :
    SameRequests db db' := by
  induction ids generalizing db clock replies with
  | nil =>
    cases h
    exact .refl _
  | cons id ids ih =>
    obtain ⟨⟨reply, db₁⟩, h₁, h⟩ := bind_eq_ok.1 h
    obtain ⟨⟨rest, db₂⟩, h₂, h⟩ := bind_eq_ok.1 h
    cases h
    have hreaped := pqReapOne_reaped hg h₁
    exact (of_reaped hreaped).trans (ih (hreaped.progress.good hg) h₂)

theorem of_enqueue {a : Queue.Admission}
    (h : pqEnqueue db clock a = .ok (reply, db')) : SameRequests db db' := by
  rcases pqEnqueue_spec h with ⟨q, -, rfl, -⟩ | ⟨-, -, x, he⟩
  · exact .refl _
  · exact of_fresh hg he.job_fresh rfl (he.view hg)

theorem of_pdEnqueue {inst : Installed} {a : Admission}
    (h : pdEnqueue inst db clock a = .ok (reply, db')) : SameRequests db db' := by
  rcases pdEnqueue_spec hg h with ⟨⟨requests, rfl⟩, -⟩ | ⟨stage, scope, requests, -, -, -, -, he, -⟩
  · exact .refl _
  · obtain ⟨generation, hview⟩ := he.view
    have hg₁ : Jobs.Good Set.univ ({ db with requests } : Database).view := hg
    exact of_fresh hg₁ he.fresh rfl hview

theorem of_finalize {b : Builtins} {uri sha : Option String}
    (h : pqFinalize b db clock env job token uri sha = .ok (reply, db')) : SameRequests db db' := by
  rcases pqFinalize_spec h with ⟨j, hj, -, h₁⟩ | ⟨-, h₁⟩
  · rcases pdFinalize_spec h₁ with ⟨rfl, -⟩ | ⟨a, u, s, howns, ha, -, -, h₂⟩
    · exact .refl _
    obtain ⟨-, f, -, -, g, -, -, he⟩ := finishProcess_effect hg (key_eq hj) (pqOwns_iff.1 howns).1
      (attempt_of_owns howns ha) h₂
    exact of_effect he rfl
  · rcases Queue.pqFinalize_spec h₁ with ⟨rfl, -⟩ | ⟨j, r, hj, hr, ⟨rfl, -⟩ | ⟨howns, hcases⟩⟩
    · exact .refl _
    · exact .refl _
    · rcases hcases with ⟨rfl, -⟩ | ⟨-, h₂⟩
      · exact .refl _
      obtain ⟨hrunning, -, ⟨attempt, ha, hta⟩, -⟩ := pqOwns_iff.1 howns
      have hrid : r.runId = j.runId := congrArg Prod.snd (Table.find_eq_some.1 hr).2
      obtain ⟨db₁, moved, hpublish, -, -, -, he⟩ :=
        finishJob_effect hg (key_eq hj) hrunning (hta.trans ha.symm) hrid h₂
      obtain ⟨-, heads, rfl, -⟩ := publish_spec hpublish
      have hsame : SameRequests db db₁ := of_effect he rfl
      exact hsame

theorem of_endAttempt {action : EndAction} {error : Option String}
    (h : pqEndAttempt db clock env job token action error = .ok (reply, db')) :
    SameRequests db db' := by
  rcases Queue.pqEndAttempt_spec (pqEndAttempt_spec h).2 with ⟨rfl, -⟩ |
    ⟨j, j', hj, howns, -, -, -, h₁⟩
  · exact .refl _
  · obtain ⟨-, he⟩ := pqTerminateAttempt_effect hg (key_eq hj) (pqOwns_iff.1 howns).1 h₁
    exact of_effect he (by simp [JobView.setState, JobView.setAttempt])

theorem of_queue {b : Builtins} {call : Queue.Call} {answer : Queue.Answer}
    (h : queueBody b db clock call = .ok (answer, db')) :
    SameRequests db db' := by
  cases call with
  | enqueue a =>
    obtain ⟨reply, -, h⟩ := answering_eq_ok h
    exact of_enqueue hg h
  | claim env priority owner attempt lease =>
    obtain ⟨reply, -, h⟩ := answering_eq_ok h
    rcases pqClaim_spec h with ⟨rfl, -⟩ | ⟨o, i, j, hj, -, -, h₁⟩
    · exact .refl _
    · exact of_claim hj h₁
  | heartbeat env job token lease =>
    obtain ⟨reply, -, h⟩ := answering_eq_ok h
    rcases pqHeartbeat_spec h with ⟨rfl, -⟩ | ⟨j, -, -, -, -, -, he⟩
    · exact .refl _
    · exact of_effect he rfl
  | finalize env job token uri sha =>
    obtain ⟨reply, -, h⟩ := answering_eq_ok h
    exact of_finalize hg h
  | fail | release | park =>
    obtain ⟨reply, -, h⟩ := answering_eq_ok h
    exact of_endAttempt hg h
  | due env after limit =>
    cases h
    exact .refl _
  | reapOne env job =>
    obtain ⟨r, -, h⟩ := answering_eq_ok h
    exact of_reaped (pqReapOne_reaped hg h)
  | reap env after limit =>
    obtain ⟨page, -, h⟩ := answering_eq_ok h
    unfold pqReap at h
    split at h
    · cases h
    · obtain ⟨⟨replies, db₁⟩, h₁, h⟩ := bind_eq_ok.1 h
      cases h
      exact of_reapEach hg h₁
  | cancel env job version =>
    obtain ⟨reply, -, h⟩ := answering_eq_ok h
    rcases pqCancel_spec hg h with ⟨rfl, -⟩ | ⟨j, -, -, -, -, -, he⟩
    · exact .refl _
    · exact of_effect he rfl

theorem of_body {inst : Installed} {b : Builtins} {call : Call} {answer : Answer}
    (hcall : call.provider = none)
    (h : call.body inst b db clock = .ok (answer, db')) : SameRequests db db' := by
  cases call with
  | queue call =>
    obtain ⟨r, -, h⟩ := map_eq_ok h
    exact of_queue hg h
  | claimClass env priority owner attempt lease cls =>
    obtain ⟨r, -, h⟩ := replying_eq_ok h
    rcases pqClaimClass_spec h with ⟨rfl, -⟩ | ⟨o, i, j, c, hj, -, h₁⟩
    · exact .refl _
    · exact of_claim hj h₁
  | endAttempt | failProven | releaseProven | parkProven =>
    obtain ⟨r, -, h⟩ := replying_eq_ok h
    exact of_proven (pqEndAttemptProven_proven hg h)
  | reapClass env after limit cls =>
    obtain ⟨page, -, h⟩ := map_eq_ok h
    obtain ⟨l, c, replies, -, -, h₁⟩ := pqReapClass_spec h
    exact of_reapEach hg h₁
  | enqueue a =>
    obtain ⟨r, -, h⟩ := replying_eq_ok h
    exact of_pdEnqueue hg h
  | releaseScope env scope =>
    cases h
    rcases pdReleaseScope_spec db env scope with ⟨h, -⟩ | ⟨g, -, -, -, h⟩
    · rw [h]
      exact .refl _
    · rw [h]
      exact fun _ => rfl
  | providerIntent => cases hcall
  | providerUpdate => cases hcall
  | log l =>
    obtain ⟨u, -, h⟩ := map_eq_ok (f := fun _ : Unit => Answer.logged) h
    unfold insertLog at h
    split at h
    · cases h
    · obtain ⟨db₁, h₁, h⟩ := bind_eq_ok.1 h
      cases h
      obtain ⟨t, -, rfl⟩ := write_eq_ok.1 h₁
      exact .refl _

end

/-- A request of a job is in the table, and every row is one of its job. -/
theorem mem_requests :
    r ∈ (db.view k).requests ↔ r ∈ db.providerRequests.rows ∧ (r.env, r.jobId) = k := by
  simp [Database.view]

theorem mem_iff (h : SameRequests db db') :
    r ∈ db'.providerRequests.rows ↔ r ∈ db.providerRequests.rows := by
  have hview := h (r.env, r.jobId)
  constructor
  · intro hr
    have hmem : r ∈ (db'.view (r.env, r.jobId)).requests := mem_requests.2 ⟨hr, rfl⟩
    rw [hview] at hmem
    exact (mem_requests.1 hmem).1
  · intro hr
    have hmem : r ∈ (db.view (r.env, r.jobId)).requests := mem_requests.2 ⟨hr, rfl⟩
    rw [← hview] at hmem
    exact (mem_requests.1 hmem).1

end SameRequests

/-! ## What a call does to the requests -/

/-- A step leaves the requests alone, records an intent or records what became of a request. -/
inductive Pays (db db' : Database) (e : Event) : Prop
  | same (h : SameRequests db db') (hcall : e.call.provider.isSome → db' = db)
  | intent {env : String} {job : Uuid} {token : Token} {provider : Option String}
      {digest : Option (List UInt8)} {r : ProviderRow} {j : JobRow}
      (hcall : e.call = .providerIntent env job token (some r.requestId) provider digest)
      (hj : (db.view (env, job)).job = some j) (hstage : j.stage ≠ .noop)
      (howns : pqOwns j token (e.clock.read 0) = true)
      (hkey : (r.env, r.jobId) = (env, job)) (hattempt : token.attempt = some r.attemptId)
      (hclosed : (db.view (env, job)).NoOpen) (hdb : db.insertProviderRequest r = .ok db')
  | update {env : String} {job : Uuid} {token : Token} {batch : Option String} {r : ProviderRow}
      {s : ProviderState}
      (hcall : e.call = .providerUpdate env job token (some r.requestId) (some (.known s)) batch)
      (hfind : db.providerRequests.find r.requestId = some r) (hkey : (r.env, r.jobId) = (env, job))
      (hmay : mayBecome r.state s = true) (hbatch : r.providerBatchId.isSome →
        r.providerBatchId = batch)
      (howned : Owns db e.clock (env, job) token ∨
        mayAcknowledge (db.attempts.find (env, r.attemptId)) token (some (.known s)) = true)
      (hdb : db.updateProviderRequest r.requestId (recordState s batch) = .ok db')

variable {inst : Installed} {b : Builtins}

theorem Step.pays (hg : Jobs.Good Set.univ db.view) (h : Step inst b db e db') :
    Pays db db' e := by
  rcases h with ⟨answer, -, hexec⟩ | ⟨error, -, -, rfl⟩
  swap
  · exact .same (.refl _) fun _ => rfl
  have hbody := (exec_eq_ok hexec).1
  cases hprovider : e.call.provider with
  | none => exact .same (.of_body hg hprovider hbody) (by simp [hprovider])
  | some p =>
    obtain ⟨clock, call, answer'⟩ := e
    cases call with
    | providerIntent env job token request provider digest =>
      obtain ⟨r, -, h⟩ := map_eq_ok hbody
      obtain ⟨j, hj, hstage, howns, ⟨-, -, -, -, -, rfl⟩ |
        ⟨id, attempt, p, d, rfl, hattempt, hclosed, -, hdb⟩⟩ := pdProviderIntent_spec h
      · exact .same (.refl _) fun _ => rfl
      · exact .intent rfl hj hstage howns rfl hattempt hclosed hdb
    | providerUpdate env job token request state batch =>
      obtain ⟨r, -, h⟩ := map_eq_ok hbody
      obtain ⟨r, s, rfl, hfind, hkey, rfl, hmay, hbatch, howned, hdb⟩ := pdProviderUpdate_spec h
      exact .update rfl hfind hkey hmay hbatch howned hdb
    | _ => cases hprovider

/-! ## The requests of a run -/

theorem mayBecome_rank {s s' : ProviderState} (h : mayBecome s s' = true) :
    s' = s ∨ rank s < rank s' := by
  cases s <;> cases s' <;> simp_all [mayBecome, rank]

theorem Advances.refl (r : ProviderRow) : Advances r r := ⟨rfl, rfl, .inl rfl, fun _ => rfl⟩

theorem Advances.trans {r r' r'' : ProviderRow} (h : Advances r r') (h' : Advances r' r'') :
    Advances r r'' where
  key := h'.key.trans h.key
  content := h'.content.trans h.content
  state := by
    rcases h.state with heq | hlt
    · rw [← heq]
      exact h'.state
    · right
      rcases h'.state with heq' | hlt'
      · rwa [heq']
      · exact hlt.trans hlt'
  batch hb := by
    have hkept := h.batch hb
    rw [← hkept] at hb ⊢
    exact h'.batch hb

/-- No step loses a request or takes one back. -/
theorem Pays.advances (h : Pays db db' e) {id : Uuid}
    (hr : db.providerRequests.find id = some r) :
    ∃ r', db'.providerRequests.find id = some r' ∧ Advances r r' := by
  cases h with
  | same h hcall =>
    obtain ⟨hmem, hid⟩ := Table.find_eq_some.1 hr
    exact ⟨r, Table.find_eq_some.2 ⟨(SameRequests.mem_iff h).2 hmem, hid⟩, .refl r⟩
  | @intent env job token provider digest r₀ j hcall hj hstage howns hkey hattempt hclosed hdb =>
    obtain ⟨t, ht, rfl⟩ := write_eq_ok.1 hdb
    refine ⟨r, ?_, .refl r⟩
    rw [Table.find_insert ht, if_neg]
    · exact hr
    rintro rfl
    rw [Table.insert_fresh ht] at hr
    cases hr
  | @update env job token batch r₀ s hcall hfind hkey hmay hbatch howned hdb =>
    obtain ⟨t, ht, rfl⟩ := write_eq_ok.1 hdb
    show ∃ r', t.find id = some r' ∧ Advances r r'
    rw [Table.find_update (f := recordState s batch) (fun _ => rfl) ht]
    split
    · next hid =>
      rw [hid, hfind] at hr
      obtain rfl := Option.some.inj hr
      rw [hfind]
      exact ⟨_, rfl, rfl, rfl, mayBecome_rank hmay, fun hb => (hbatch hb).symm⟩
    · exact ⟨r, hr, .refl r⟩

theorem Pays.oneOpen (h : Pays db db' e) (hone : OneOpen db) : OneOpen db' := by
  cases h with
  | same h hcall =>
    intro r hr r' hr'
    exact hone r ((SameRequests.mem_iff h).1 hr) r' ((SameRequests.mem_iff h).1 hr')
  | @intent env job token provider digest r₀ j hcall hj hstage howns hkey hattempt hclosed hdb =>
    obtain ⟨t, ht, rfl⟩ := write_eq_ok.1 hdb
    have hno : ∀ r ∈ db.providerRequests.rows, (r.env, r.jobId) = (r₀.env, r₀.jobId) →
        r.state.open = false := fun r hr hk =>
      hclosed r (SameRequests.mem_requests.2 ⟨hr, hk.trans hkey⟩)
    intro r hr r' hr' hk hopen hopen'
    rw [Table.insert_rows ht, mem_append, mem_singleton] at hr hr'
    rcases hr with hr | rfl <;> rcases hr' with hr' | rfl
    · exact hone r hr r' hr' hk hopen hopen'
    · rw [hno r hr hk] at hopen
      cases hopen
    · rw [hno r' hr' hk.symm] at hopen'
      cases hopen'
    · rfl
  | @update env job token batch r₀ s hcall hfind hkey hmay hbatch howned hdb =>
    obtain ⟨t, ht, rfl⟩ := write_eq_ok.1 hdb
    have hback : ∀ r ∈ t.rows, ∃ x ∈ db.providerRequests.rows,
        r = (if x.requestId = r₀.requestId then recordState s batch x else x) ∧
        (r.env, r.jobId) = (x.env, x.jobId) ∧ (r.state.open = true → x.state.open = true) := by
      intro r hr
      rw [Table.update_rows ht] at hr
      obtain ⟨x, hx, rfl⟩ := mem_map.1 hr
      refine ⟨x, hx, rfl, by split <;> rfl, fun hopen => ?_⟩
      split at hopen
      · next hid =>
        have hx' := Table.find_of_mem hx
        rw [show Row.key x = r₀.requestId from hid, hfind] at hx'
        obtain rfl := Option.some.inj hx'
        by_contra hclosed
        have hsame := (mayBecome_cases hmay).1 (by simpa using hclosed)
        rw [← hsame] at hclosed
        exact hclosed hopen
      · exact hopen
    intro r hr r' hr' hk hopen hopen'
    obtain ⟨x, hx, rfl, hxk, hxo⟩ := hback r hr
    obtain ⟨x', hx', rfl, hxk', hxo'⟩ := hback r' hr'
    rw [hone x hx x' hx' (hxk.symm.trans (hk.trans hxk')) (hxo hopen) (hxo' hopen')]

/-- The job is that of a process, and the attempt is one of its attempts. -/
def Attempted (db : Database) (k : JobKey) (id : Uuid) : Prop :=
  (∃ j, (db.view k).job = some j ∧ j.stage ≠ .noop) ∧
    ∃ a ∈ (db.view k).attempts, a.attemptId = id

/-- Every request is one of an attempt of its job. -/
def Submitted (db : Database) : Prop :=
  ∀ r ∈ db.providerRequests.rows, Attempted db (r.env, r.jobId) r.attemptId

theorem Attempted.step {id : Uuid} (hg : Jobs.Good Set.univ db.view)
    (hs : Step inst b db e db') (h : Attempted db k id) : Attempted db' k id := by
  obtain ⟨⟨j, hj, hstage⟩, a, ha, rfl⟩ := h
  have hfollows := (hs.reach hg).follows hg k
  obtain ⟨j', hj', hf⟩ := hfollows.job j hj
  obtain ⟨a', ha', -, hid, -⟩ := hfollows.attempts a ha
  exact ⟨⟨j', hj', by rwa [hf.stage]⟩, a', ha', hid⟩

theorem Step.submitted (hg : Jobs.Good Set.univ db.view) (h : Step inst b db e db')
    (hs : Submitted db) : Submitted db' := by
  cases h.pays hg with
  | same hsame hcall => exact fun r hr => (hs r ((SameRequests.mem_iff hsame).1 hr)).step hg h
  | @intent env job token provider digest r₀ j hcall hj hstage howns hkey hattempt hclosed hdb =>
    have hold : Attempted db (r₀.env, r₀.jobId) r₀.attemptId := by
      obtain ⟨-, -, ⟨id, hid, hid'⟩, -⟩ := pqOwns_iff.1 howns
      obtain ⟨a, ha, haid, -⟩ := ((hg.ok (env, job)).sound j hj).held id hid
      rw [hkey]
      exact ⟨⟨j, hj, hstage⟩, a, ha, haid.trans (Option.some.inj (hid'.symm.trans hattempt))⟩
    have hnew := hold.step hg h
    obtain ⟨t, ht, rfl⟩ := write_eq_ok.1 hdb
    intro r hr
    rw [Table.insert_rows ht, mem_append, mem_singleton] at hr
    rcases hr with hr | rfl
    · exact (hs r hr).step hg h
    · exact hnew
  | @update env job token batch r₀ s hcall hfind hkey hmay hbatch howned hdb =>
    obtain ⟨t, ht, rfl⟩ := write_eq_ok.1 hdb
    intro r hr
    rw [Table.update_rows ht] at hr
    obtain ⟨x, hx, rfl⟩ := mem_map.1 hr
    have hx' := (hs x hx).step hg h
    split
    · exact hx'
    · exact hx'

theorem reachable_submitted {conversations : List ℤ} {es : List Event}
    (h : Run (Step inst b) (.fresh conversations) es db) : Submitted db ∧ OneOpen db := by
  refine h.invariant (fun _ db => Submitted db ∧ OneOpen db) ⟨?_, ?_⟩
    fun es db e db' hrun hinv hs => ?_
  · exact fun r hr => nomatch hr
  · exact fun r hr => nomatch hr
  · have hg := reachable_good hrun
    exact ⟨hs.submitted hg hinv.1, (hs.pays hg).oneOpen hinv.2⟩

/-! ## The answers -/

theorem Pays.late (h : Pays db db' e) (hs : Submitted db)
    (hcall : e.call.provider = some (k, token)) (hfenced : ¬ Owns db e.clock k token) :
    LateOnly db e db' token := by
  cases h with
  | same h hsame => exact .inl (hsame (by simp [hcall]))
  | intent hintent hj hstage howns hkey hattempt hclosed hdb =>
    rw [hintent] at hcall
    cases hcall
    exact absurd ⟨_, hj, howns⟩ hfenced
  | @update env job token' batch r s hupdate hfind hkey hmay hbatch howned hdb =>
    rw [hupdate] at hcall
    cases hcall
    cases hkey
    obtain ⟨-, a, ha, hid⟩ := hs r (Table.find_eq_some.1 hfind).1
    have hlate := howned.resolve_left hfenced
    have hstate := mayAcknowledge_state hlate
    have hfound := Database.find_attempt ha
    rw [hid] at hfound
    rw [hfound] at hlate
    refine .inr ⟨r, a, s, batch, hfind, ha, hid, ?_, hstate, hmay, hupdate, hdb⟩
    have hmatch := (Bool.and_eq_true_iff.1 hlate).1
    simp only [all_some, Bool.and_eq_true, maybeEq, Option.all_eq_true, decide_eq_true_eq]
      at hmatch
    obtain ⟨⟨hattempt, howner⟩, hepoch⟩ := hmatch
    exact ⟨fun x hx => (howner x hx).symm, fun x hx => (hattempt x hx).symm,
      fun x hx => (hepoch x hx).symm⟩

theorem pdProviderIntent_repeats {provider : Option String}
    {digest : Option (List UInt8)} (hfind : db.providerRequests.find r.requestId = some r)
    (hj : db.jobs.find (env, job) = some j) (hstage : j.stage ≠ .noop)
    (howns : pqOwns j token (clock.read 0) = true) (hsame : Repeats r env job token provider digest) :
    pdProviderIntent db clock env job token (some r.requestId) provider digest =
      .ok (⟨false, r.state, r.requestId⟩, db) := by
  obtain ⟨hkey, hattempt, rfl, rfl⟩ := hsame
  obtain ⟨rfl, rfl⟩ := Prod.mk.inj hkey
  simp [pdProviderIntent, pqLock, hj, Option.filter, hstage, howns, hfind, hattempt, sqlEq]

theorem Step.intentReused (hs : Submitted db) (h : Step inst b db e db') :
    IntentReused db e db' := by
  intro env job token id provider digest r hcall hr
  obtain rfl : r.requestId = id := (Table.find_eq_some.1 hr).2
  obtain ⟨clock, call, answer⟩ := e
  obtain rfl : call = _ := hcall
  rcases h with ⟨answer', hanswer, hexec⟩ | ⟨error, hanswer, hexec, rfl⟩
  · obtain rfl : answer = .ok answer' := hanswer
    obtain ⟨reply, rfl, hbody⟩ := map_eq_ok (exec_eq_ok hexec).1
    obtain ⟨j, hj, -, howns, ⟨r', hid, hr', hsame, rfl, rfl⟩ |
      ⟨id, attempt, p, d, hid, -, -, -, hdb⟩⟩ := pdProviderIntent_spec hbody
    · obtain hid := Option.some.inj hid
      rw [hid, hr'] at hr
      obtain rfl := Option.some.inj hr
      exact ⟨rfl, fun _ => rfl, fun hnot => absurd ⟨⟨j, hj, howns⟩, hsame⟩ hnot⟩
    · obtain rfl := Option.some.inj hid
      obtain ⟨t, ht, -⟩ := write_eq_ok.1 hdb
      have hfresh := Table.insert_fresh ht
      rw [show Row.key (intentRow env job attempt r.requestId p d) = r.requestId from rfl, hr]
        at hfresh
      cases hfresh
  · refine ⟨rfl, fun ⟨⟨j, hj, howns⟩, hsame⟩ => ?_, fun _ => ⟨error, hanswer⟩⟩
    obtain ⟨⟨j', hj', hstage⟩, -⟩ := hs r (Table.find_eq_some.1 hr).1
    rw [hsame.1] at hj'
    obtain rfl := Option.some.inj (hj'.symm.trans hj)
    have hcommit : (Call.providerIntent env job token (some r.requestId) provider digest).exec inst b
        db' clock = .ok (.provider ⟨false, r.state, r.requestId⟩, db') := by
      refine bind_eq_ok.2 ⟨(.provider ⟨false, r.state, r.requestId⟩, db'), ?_,
        if_pos (bindingsHold_of_jobs rfl)⟩
      show (pdProviderIntent db' clock env job token (some r.requestId) provider digest).map _ = _
      rw [pdProviderIntent_repeats hr hj hstage howns hsame]
      rfl
    rw [hcommit] at hexec
    cases hexec

/-! ## The result -/

/-- Over any calls in any order: no two requests of a job are open; a request only moves forward and
keeps its batch, whatever calls follow; an id that is in use is refused or answers with its own request;
and a call whose token does not own the job records at most that its own request may have been
submitted. -/
theorem requests_paid_once {conversations : List ℤ} {es : List Event}
    (h : Run (Step inst b) (.fresh conversations) es db) :
    OneOpen db ∧
    (∀ es' db', Run (Step inst b) db es' db' → ∀ id r, db.providerRequests.find id = some r →
      ∃ r', db'.providerRequests.find id = some r' ∧ Advances r r') ∧
    ∀ e db', Step inst b db e db' → IntentReused db e db' ∧
      ∀ k token, e.call.provider = some (k, token) → ¬ Owns db e.clock k token →
        LateOnly db e db' token := by
  have hg := reachable_good h
  have hs := (reachable_submitted h).1
  refine ⟨(reachable_submitted h).2, fun es' db' h' id r hr => ?_, fun e db' hstep =>
    ⟨hstep.intentReused hs, fun k token hcall hfenced => (hstep.pays hg).late hs hcall hfenced⟩⟩
  refine (h'.keeps (fun db' => Jobs.Good Set.univ db'.view ∧
    ∃ r', db'.providerRequests.find id = some r' ∧ Advances r r') ⟨hg, r, hr, .refl r⟩
    fun db₁ e db₂ ⟨hg₁, r₁, hr₁, ha⟩ hstep => ?_).2
  obtain ⟨r₂, hr₂, ha'⟩ := (hstep.pays hg₁).advances hr₁
  exact ⟨hg₁.of_reach (hstep.reach hg₁), r₂, hr₂, ha.trans ha'⟩

/-- A worker hands a batch to the provider. -/
private def submitBatch : List (Clock × Call) :=
  [(.still 0, .enqueue (sampleAdmission "scope" "key" 10 20)),
    (.still 1, .claimClass "dev" 1 (some 30) (some 40) (some 60) (some .delphi)),
    (.still 2, .providerIntent "dev" 20 ⟨some 30, some 40, some 1⟩ (some 50) (some "provider")
      (some (List.replicate 32 0))),
    (.still 3, .providerUpdate "dev" 20 ⟨some 30, some 40, some 1⟩ (some 50)
      (some (.known .submitted)) (some "batch"))]

private def cancelSubmitted : Clock × Call := (.still 4, .queue (.cancel "dev" 20 (some 1)))

private theorem submitBatch_spec :
    ((history .foundation noBuiltins [1] submitBatch).2.providerRequests.find 50).map
      (·.providerBatchId) = some (some "batch") := by
  decide +kernel

/-- The batch of a job that is cancelled stays on record. -/
theorem cancelled_batch_kept :
    ∃ r, (Call.event .foundation noBuiltins (history .foundation noBuiltins [1] submitBatch).2
      cancelSubmitted).2.providerRequests.find 50 = some r ∧ r.providerBatchId = some "batch" := by
  have hrun := history_run .foundation noBuiltins [1] submitBatch
  have hspec := submitBatch_spec
  generalize (history .foundation noBuiltins [1] submitBatch).2 = db at hrun hspec ⊢
  obtain ⟨r, hr, hbatch⟩ := map_eq_some_iff.1 hspec
  have hcancel := Run.nil.snoc (Call.event_step .foundation noBuiltins db cancelSubmitted)
  obtain ⟨r', hr', ha⟩ := (requests_paid_once hrun).2.1 _ _ hcancel 50 r hr
  exact ⟨r', hr', (ha.batch (by rw [hbatch]; rfl)).trans hbatch⟩

end Polis.Delphi
