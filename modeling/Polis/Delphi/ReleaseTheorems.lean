import Polis.Delphi.GuardTheorems

/-!
# Freeing a scope

A request to a provider is closed by the worker that owns its job. A job that is cancelled or becomes dead
with a request that is still open has no owner any more, so its scope stays held for good. If no call
abandons a request in this way, every scope whose jobs have ended can be freed.

Reference: `server/postgres/migrations/000023_create_delphi_foundation.sql`.
-/

namespace Polis.Delphi

open Queue Function Option

/-! ## The statement -/

/-- The token that a worker holds for its attempt. -/
def tokenOf (a : AttemptRow) : Token := ⟨some a.ownerId, some a.attemptId, some a.leaseEpoch⟩

/-- The calls by which an executor brings a tree to its end. -/
inductive Executes (db : Database) : Call → Prop
  | release (env scope : String) : Executes db (.releaseScope env scope)
  | update {env : String} {job : Uuid} {a : AttemptRow} (ha : a ∈ (db.view (env, job)).attempts)
      (request : Option Uuid) (state : Option StateText) (batch : Option String) :
      Executes db (.providerUpdate env job (tokenOf a) request state batch)
  | ended {env : String} {job : Uuid} {a : AttemptRow} (ha : a ∈ (db.view (env, job)).attempts)
      (action : Arg EndAction) (error : Option String) (exitConfirmed : Option Bool)
      (eligibleAt : Option Time) :
      Executes db (.endAttempt env job (tokenOf a) action error exitConfirmed eligibleAt)

/-- A call of an executor. -/
def ExecutorStep (inst : Installed) (b : Builtins) (db : Database) (e : Event) (db' : Database) :
    Prop :=
  Step inst b db e db' ∧ Executes db e.call

/-- Some calls of an executor lead to a release of the scope. -/
def CanRelease (inst : Installed) (b : Builtins) (db : Database) (env scope : String) : Prop :=
  ∃ es db', Run (ExecutorStep inst b) db es db' ∧ (pdReleaseScope db' env scope).1 = true

/-- The call ends the job for good, as a cancel, as the end of its attempt or as the end of its
budget. -/
inductive Abandons (db : Database) (clock : Clock) (call : Call) (k : JobKey) (j : JobRow) : Prop
  | cancelled (hcall : call = .queue (.cancel k.1 k.2 (some j.mgmtVersion)))
      (hlive : j.state.terminal = false)
  | ended {token : Token} {action : EndAction} (hcall : call.ends = some (k, token, action))
      (howns : pqOwns j token (clock.read 1) = true) (hdead : provenState db j action = .dead)
  | reaped {clock' : Clock} (hcall : (k, clock') ∈ call.reaps db clock)
      (hreap : Reapable (db.view k) clock' j) (hspent : j.maxAttempts ≤ j.spent)

/-- A call that abandons no job with an open request. -/
def CleanStep (inst : Installed) (b : Builtins) (db : Database) (e : Event) (db' : Database) : Prop :=
  Step inst b db e db' ∧ ∀ k j, db.jobs.find k = some j → j.stage ≠ .noop →
    hasRequest db k ProviderState.open = true → ¬ Abandons db e.clock e.call k j

/-! ## Clean runs -/

variable {db db' : Database} {k : JobKey} {j : JobRow} {inst : Installed} {b : Builtins}
  {env scope : String} {g : GuardRow}

/-- No job that has ended has an open request. -/
def RequestsClosed (db : Database) : Prop :=
  ∀ k j, db.jobs.find k = some j → j.stage ≠ .noop → j.state.terminal = true → (db.view k).NoOpen

/-- A job that is not a noop is new when it is admitted, and then it is queued. -/
theorem Step.fresh_queued {e : Event} (hg : Guarded db) (h : Step inst b db e db')
    (hnone : (db.view k).job = none) (hj : (db'.view k).job = some j) (hstage : j.stage ≠ .noop) :
    j.state = .queued := by
  rcases h with ⟨answer, -, hexec⟩ | ⟨error, -, -, rfl⟩
  swap
  · rw [hnone] at hj
    cases hj
  have hmoves := body_moves hg.good (exec_eq_ok hexec).1
  generalize e.call = call at hmoves
  generalize e.clock = clock at hmoves
  cases hmoves with
  | progress h hold => exact absurd (h.reach.stage_of_fresh hnone hj) hstage
  | @enter a stage scope requests clock reply hstage hscope hmem hfree he hout hjob =>
    obtain ⟨generation, hview⟩ := he.view
    rw [hview] at hj
    by_cases hk : k = (a.env, a.jobId)
    · subst hk
      rw [update_self] at hj
      obtain rfl := Option.some.inj hj
      rfl
    · rw [update_of_ne hk] at hj
      have hj₀ : (db.view k).job = some j := hj
      rw [hnone] at hj₀
      cases hj₀
  | release hfind hended hclosed hdb =>
    subst hdb
    have hj₀ : (db.view k).job = some j := hj
    rw [hnone] at hj₀
    cases hj₀

/-- A job that ends without being abandoned had closed its requests. -/
theorem Turn.closed {clock : Clock} {call : Call} {j' : JobRow} (h : Turn db clock call k j j')
    (hj : (db.view k).job = some j) (hterminal : j'.state.terminal = true)
    (hclean : ¬ (db.view k).NoOpen → ¬ Abandons db clock call k j) : (db.view k).NoOpen := by
  by_contra hopen
  have hkept := hclean hopen
  cases h with
  | claimed _ hstate | expired _ hstate =>
    rw [hstate] at hterminal
    cases hterminal
  | succeeded hclosed hspent hstate => exact hopen hclosed
  | @ended token action hcall howns hstate =>
    have hkey : j.key = k := Database.key_of_view hj
    rcases provenState_cases db j action with h | ⟨-, ⟨h, -⟩ | h⟩
    · rw [hstate, h] at hterminal
      cases hterminal
    · rw [hstate, h] at hterminal
      cases hterminal
    · exact hkept (.ended hcall howns h)
  | reaped hcall hreap hspent hstate => exact hkept (.reaped hcall hreap (hstate hterminal))
  | cancelled hcall hlive hspent => exact hkept (.cancelled hcall hlive)

theorem CleanStep.closed {e : Event} (hg : Guarded db) (h : CleanStep inst b db e db')
    (hclosed : RequestsClosed db) : RequestsClosed db' := by
  obtain ⟨hs, hclean⟩ := h
  intro k j' hj' hstage hterminal
  cases hj : (db.view k).job with
  | none =>
    rw [hs.fresh_queued hg hj hj' hstage] at hterminal
    cases hterminal
  | some j =>
    have hreach := hs.reach hg.good
    obtain ⟨j₁, hj₁, hf⟩ := (hreach.follows hg.good k).job j hj
    obtain rfl := Option.some.inj (hj₁.symm.trans hj')
    rw [hf.stage] at hstage
    by_cases hlive : j.state.terminal = true
    · exact (Reach.ended hreach ⟨j, hj, hlive⟩).2.2 (hclosed k j hj hstage hlive)
    cases hs.fate hg.good hj hstage with
    | quiet hj₂ hspent hstate =>
      obtain rfl := Option.some.inj (hj₂.symm.trans hj')
      rw [hstate] at hterminal
      exact absurd hterminal hlive
    | turned hj₂ hrequests hturn =>
      obtain rfl := Option.some.inj (hj₂.symm.trans hj')
      have hno := hturn.closed hj hterminal fun hopen => hclean k j hj hstage (by
        rw [← Bool.not_eq_false]
        exact fun hno => hopen (noOpen_iff.1 hno))
      rw [JobView.NoOpen, hrequests]
      exact hno

theorem CleanStep.run {conversations : List ℤ} {es : List Event}
    (h : Run (CleanStep inst b) (.fresh conversations) es db) :
    Run (Step inst b) (.fresh conversations) es db :=
  h.mono fun _ _ _ h => h.1

/-- In a clean run no job ends with an open request. -/
theorem clean_closed {conversations : List ℤ} {es : List Event}
    (h : Run (CleanStep inst b) (.fresh conversations) es db) : RequestsClosed db := by
  have hfresh : RequestsClosed (.fresh conversations) := by
    intro k j hj
    cases hj
  exact h.invariant (fun _ db => RequestsClosed db) hfresh fun es db e db' hrun hclosed hs =>
    hs.closed (reachable_guarded (CleanStep.run hrun)) hclosed

/-! ## What an executor can free -/

theorem CanRelease.of_closed (hfind : db.guards.find (env, scope) = some g)
    (hended : TreeEnded db env g.rootJobId) (hclosed : TreeClosed db env g.rootJobId) :
    CanRelease inst b db env scope := by
  refine ⟨[], db, .nil, ?_⟩
  rcases pdReleaseScope_spec db env scope with ⟨-, hno⟩ | ⟨g', -, -, -, h⟩
  · exact absurd ⟨hended, hclosed⟩ (hno g hfind)
  · rw [h]

/-- The scope is held by a job that has ended with an open request. -/
structure Stuck (db : Database) (env scope : String) (g : GuardRow) (id : Uuid) : Prop where
  guarded : Guarded db
  held : db.guards.find (env, scope) = some g
  root : id = g.rootJobId
  ended : Ended (db.view (env, id))
  unclosed : ¬ (db.view (env, id)).NoOpen

theorem Stuck.step {id : Uuid} {e : Event} (hs : Stuck db env scope g id)
    (h : Step inst b db e db') : Stuck db' env scope g id := by
  obtain ⟨hended, hiff⟩ := Reach.ended (h.reach hs.guarded.good) hs.ended
  refine ⟨hs.guarded.step h, ?_, hs.root, hended, fun hno => hs.unclosed (hiff.1 hno)⟩
  rcases hs.guarded.kept h env scope g hs.held with hkept | ⟨-, hdone⟩
  · exact hkept
  · refine absurd (.inr (.inr ?_)) (hdone g.rootJobId .refl)
    rw [← Bool.not_eq_false, ← hs.root]
    exact fun hno => hs.unclosed (noOpen_iff.1 hno)

/-- No call frees it. -/
theorem Stuck.not_release {id : Uuid} (hs : Stuck db env scope g id) :
    ¬ CanRelease inst b db env scope := by
  rintro ⟨es, db', hrun, hrelease⟩
  have hs' : Stuck db' env scope g id := by
    refine hrun.keeps (fun db => Stuck db env scope g id) hs fun db e db' hs h => hs.step h.1
  rcases pdReleaseScope_spec db' env scope with ⟨h, -⟩ | ⟨g', hfind, -, hclosed, -⟩
  · rw [h] at hrelease
    cases hrelease
  · obtain rfl := Option.some.inj (hs'.held.symm.trans hfind)
    exact hs'.unclosed (by rw [hs'.root]; exact hclosed _ .refl)

theorem Guarded.canRelease_iff (hg : Guarded db) (hfind : db.guards.find (env, scope) = some g)
    (hended : TreeEnded db env g.rootJobId) :
    CanRelease inst b db env scope ↔ TreeClosed db env g.rootJobId := by
  constructor
  · intro hrelease id hid
    by_contra hopen
    have hs : Stuck db env scope g id := ⟨hg, hfind, hg.tree hid, hg.ended hfind hended hid, hopen⟩
    exact hs.not_release hrelease
  · exact fun hclosed => .of_closed hfind hended hclosed

/-- Over any calls of which none abandons a job with an open request: no job that has ended has an open
request, and every scope whose jobs and processes have ended can be freed. In every state that any calls
reach, such a scope can be freed exactly if no job of its tree has an open request. -/
theorem clean_scope_released :
    (∀ conversations es db, Run (CleanStep inst b) (.fresh conversations) es db →
      RequestsClosed db ∧ ∀ env scope g, db.guards.find (env, scope) = some g →
        TreeEnded db env g.rootJobId → CanRelease inst b db env scope) ∧
    ∀ conversations es db, Run (Step inst b) (.fresh conversations) es db →
      ∀ env scope g, db.guards.find (env, scope) = some g → TreeEnded db env g.rootJobId →
        (CanRelease inst b db env scope ↔ TreeClosed db env g.rootJobId) := by
  refine ⟨fun conversations es db hrun => ?_, fun conversations es db hrun env scope g hfind hended =>
    (reachable_guarded hrun).canRelease_iff hfind hended⟩
  have hg := reachable_guarded (CleanStep.run hrun)
  have hclosed := clean_closed hrun
  refine ⟨hclosed, fun env scope g hfind hended => .of_closed hfind hended fun id hid => ?_⟩
  obtain ⟨j, hj, hterminal⟩ := hg.ended hfind hended hid
  refine hclosed (env, id) j hj ?_ hterminal
  obtain rfl := hg.tree hid
  obtain ⟨j', hj', hstage⟩ := hg.rooted env scope g hfind
  obtain rfl := Option.some.inj (hj'.symm.trans hj)
  exact hstage

/-- A job that is cancelled before any worker has it. -/
private def enqueueAndCancel : List (Clock × Call) :=
  [(.still 0, .enqueue (sampleAdmission "scope" "key" 10 20)),
    (.still 1, .queue (.cancel "dev" 20 (some 0)))]

private theorem enqueueAndCancel_spec :
    (history .foundation noBuiltins [1] (enqueueAndCancel.take 1)).2.providerRequests.rows = [] ∧
    ((history .foundation noBuiltins [1] enqueueAndCancel).2.guards.find ("dev", "scope")).map
      (·.rootJobId) = some 20 ∧
    ((history .foundation noBuiltins [1] enqueueAndCancel).2.delphiJobs.find 20).all
      (·.status.terminal) ∧
    unconfirmed (history .foundation noBuiltins [1] enqueueAndCancel).2 ("dev", 20) = false := by
  decide +kernel

/-- Where there are no requests every call is clean. -/
theorem CleanStep.of_no_requests {e : Event} (h : Step inst b db e db')
    (hno : db.providerRequests.rows = []) : CleanStep inst b db e db' := by
  refine ⟨h, fun k j _ _ hopen => ?_⟩
  simp [hasRequest, Database.view, hno] at hopen

/-- The scope of a job that is cancelled before any worker has it can be freed. -/
theorem cancelled_scope_released :
    CanRelease .foundation noBuiltins (history .foundation noBuiltins [1] enqueueAndCancel).2 "dev"
      "scope" := by
  obtain ⟨hno, hroot, hstatus, hexited⟩ := enqueueAndCancel_spec
  have hrun : Run (CleanStep .foundation noBuiltins) (.fresh [1])
      (history .foundation noBuiltins [1] enqueueAndCancel).1
      (history .foundation noBuiltins [1] enqueueAndCancel).2 := by
    have hfirst := Run.nil.snoc (CleanStep.of_no_requests (Call.event_step .foundation noBuiltins
      (.fresh [1]) (.still 0, .enqueue (sampleAdmission "scope" "key" 10 20))) rfl)
    exact hfirst.snoc (.of_no_requests (Call.event_step _ _ _ _) hno)
  generalize history .foundation noBuiltins [1] enqueueAndCancel = x at hrun hroot hstatus hexited ⊢
  have hg := reachable_guarded (CleanStep.run hrun)
  obtain ⟨g, hfind, hid⟩ := map_eq_some_iff.1 hroot
  refine (clean_scope_released.1 _ _ _ hrun).2 "dev" "scope" g hfind fun id htree => ?_
  rw [hg.tree htree, hid]
  exact ⟨fun d hd => (all_eq_true _ _).1 hstatus d hd, unconfirmed_eq_false.1 hexited⟩

/-- A worker hands a batch to the provider and dies for good while the provider works. -/
private def submitAndDie : List (Clock × Call) :=
  [(.still 0, .enqueue (sampleAdmission "scope" "key" 10 20)),
    (.still 1, .claimClass "dev" 1 (some 30) (some 40) (some 60) (some .delphi)),
    (.still 2, .providerIntent "dev" 20 ⟨some 30, some 40, some 1⟩ (some 50) (some "provider")
      (some (List.replicate 32 0))),
    (.still 3, .providerUpdate "dev" 20 ⟨some 30, some 40, some 1⟩ (some 50)
      (some (.known .submitted)) (some "batch")),
    (.still 4, .endAttempt "dev" 20 ⟨some 30, some 40, some 1⟩ (some .permanent) none (some true)
      none)]

private theorem submitAndDie_spec :
    ((history .foundation noBuiltins [1] submitAndDie).2.guards.find ("dev", "scope")).map
      (·.rootJobId) = some 20 ∧
    ((history .foundation noBuiltins [1] submitAndDie).2.delphiJobs.find 20).all
      (·.status.terminal) ∧
    unconfirmed (history .foundation noBuiltins [1] submitAndDie).2 ("dev", 20) = false ∧
    hasRequest (history .foundation noBuiltins [1] submitAndDie).2 ("dev", 20)
      ProviderState.open = true := by
  decide +kernel

/-- After a permanent failure with a submitted request the scope is never freed. -/
theorem dead_with_request_holds_scope :
    ¬ ∀ es db, Run (Step .foundation noBuiltins) (.fresh [1]) es db → ∀ env scope g,
      db.guards.find (env, scope) = some g → TreeEnded db env g.rootJobId →
        CanRelease .foundation noBuiltins db env scope := by
  intro hall
  have hrun := history_run .foundation noBuiltins [1] submitAndDie
  obtain ⟨hroot, hstatus, hexited, hopen⟩ := submitAndDie_spec
  generalize (history .foundation noBuiltins [1] submitAndDie).2 = db at hrun hroot hstatus hexited hopen
  have hg := reachable_guarded hrun
  obtain ⟨g, hfind, hid⟩ := map_eq_some_iff.1 hroot
  have hended : TreeEnded db "dev" g.rootJobId := by
    intro id htree
    rw [hg.tree htree, hid]
    exact ⟨fun d hd => (all_eq_true _ _).1 hstatus d hd, unconfirmed_eq_false.1 hexited⟩
  have hclosed := (hg.canRelease_iff hfind hended).1 (hall _ db hrun "dev" "scope" g hfind hended)
  have hno := noOpen_iff.2 (hclosed g.rootJobId .refl)
  rw [hid, hopen] at hno
  cases hno

end Polis.Delphi
