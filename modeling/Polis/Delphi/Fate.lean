import Polis.Delphi.Guards
import Polis.Queue.ReapTheorems

/-!
# What a call does to one process

A call leaves the state of a job that is not a noop and what the job has spent of its budget alone, or
`Turn` says how it changes the state and when.
-/

namespace Polis.Delphi

open Queue List Function

/-! ## The statement -/

/-- The calls of `pq_reap_one` for a page, each with its own readings of the clock. -/
def reapCalls (env : String) (clock : Clock) : List Uuid → List (JobKey × Clock)
  | [] => []
  | id :: ids => ((env, id), clock) :: reapCalls env (clock.later 8) ids

/-- The jobs that a call reaps. -/
def Call.reaps (call : Call) (db : Database) (clock : Clock) : List (JobKey × Clock) :=
  match call with
  | .queue (.reapOne env job) => [((env, job), clock)]
  | .queue (.reap env after limit) => reapCalls env clock (pqDue db clock env after limit)
  | .reapClass env after (some limit) (some cls) =>
    reapCalls env clock (classDue db clock env after limit cls)
  | _ => []

/-- The attempt whose process a call proves to have exited, and what is to become of its job. -/
def Call.ends : Call → Option (JobKey × Token × EndAction)
  | .endAttempt env job token (some action) _ (some true) _ => some ((env, job), token, action)
  | .failProven env job token permanent _ (some true) =>
    some ((env, job), token, if permanent = some true then .permanent else .retry)
  | .releaseProven env job token (some true) => some ((env, job), token, .release)
  | .parkProven env job token _ (some true) _ => some ((env, job), token, .park)
  | _ => none

/-- The reaper would move the job of a process that has exited. -/
structure Reapable (v : JobView) (clock : Clock) (j : JobRow) : Prop where
  exited : v.ExitsConfirmed
  resolved : v.NoUnresolved
  live : ¬ (j.state = .running ∧ j.lockedUntil.any (· ≤ clock.read 0))
  due : j.state = .running ∧ j.lockedUntil.any (· ≤ clock.read 1) ∨
    j.state = .parked ∧ j.eligibleAt ≤ clock.read 2

/-- How a call changes the state of a job that is not a noop. -/
inductive Turn (db : Database) (clock : Clock) (call : Call) (k : JobKey) (j j' : JobRow) : Prop
  | claimed (hwaiting : j.state.waiting) (hstate : j'.state = .running)
  | succeeded (hclosed : (db.view k).NoOpen) (hspent : j'.spent = j.spent)
      (hstate : j'.state = .succeeded)
  | ended {token : Token} {action : EndAction} (hcall : call.ends = some (k, token, action))
      (howns : pqOwns j token (clock.read 1) = true) (hstate : j'.state = provenState db j action)
  | expired (hspent : j'.spent = j.spent) (hstate : j'.state = .parked)
  | reaped {clock' : Clock} (hcall : (k, clock') ∈ call.reaps db clock)
      (hreap : Reapable (db.view k) clock' j) (hspent : j'.spent = j.spent)
      (hstate : j'.state.terminal → j.maxAttempts ≤ j.spent)
  | cancelled (hcall : call = .queue (.cancel k.1 k.2 (some j.mgmtVersion)))
      (hterminal : j.state.terminal = false) (hspent : j'.spent = j.spent)

/-- What becomes of a job that is not a noop. -/
inductive Fate (db db' : Database) (clock : Clock) (call : Call) (k : JobKey) (j : JobRow) : Prop
  | quiet {j' : JobRow} (hj' : (db'.view k).job = some j') (hspent : j'.spent = j.spent)
      (hstate : j'.state = j.state)
  | turned {j' : JobRow} (hj' : (db'.view k).job = some j')
      (hrequests : (db'.view k).requests = (db.view k).requests) (h : Turn db clock call k j j')

/-! ## Each call -/

variable {db db' : Database} {clock : Clock} {call : Call} {k : JobKey} {j j₀ : JobRow}
  {token : Token} {reply : Reply} {env : String} {job : Uuid} {stages : Set Stage}

section

variable (hj : (db.view k).job = some j)
include hj

/-- A call that is about another job. -/
theorem Fate.of_view (h : db'.view k = db.view k) :
    Fate db db' clock call k j :=
  .quiet (by rw [h]; exact hj) rfl rfl

theorem Fate.of_effect {g : JobView → JobView} {k₀ : JobKey}
    (he : Effect db db' k₀ g)
    (h : k = k₀ → ∃ f : JobRow → JobRow, (g (db.view k)).job = (db.view k).job.map f ∧
      (f j).spent = j.spent ∧ (f j).state = j.state) : Fate db db' clock call k j := by
  by_cases hk : k = k₀
  · obtain ⟨f, hg, hspent, hstate⟩ := h hk
    subst hk
    exact .quiet (by rw [he.view_self, hg, hj]; rfl) hspent hstate
  · exact .of_view hj (he.view_of_ne hk)

/-- A noop is another job. -/
theorem ne_of_stage (hstage : j.stage ≠ .noop)
    (hj₀ : (db.view j₀.key).job = some j₀) (hnoop : j₀.stage = .noop) : k ≠ j₀.key := by
  rintro rfl
  obtain rfl : j = j₀ := Option.some.inj (hj.symm.trans hj₀)
  exact hstage hnoop

theorem claimJob_fate {owner attempt : Uuid} {lease : Option ℤ}
    (hj₀ : (db.view j₀.key).job = some j₀) (hwaiting : j₀.state.waiting)
    (h : claimJob db clock j₀ owner attempt lease = .ok (reply, db')) :
    Fate db db' clock call k j := by
  obtain ⟨-, -, he, -, -⟩ := claimJob_effect hj₀ h
  by_cases hk : k = j₀.key
  · subst hk
    obtain rfl : j = j₀ := Option.some.inj (hj.symm.trans hj₀)
    have hj' : (db'.view j.key).job = some (j.claimed clock owner attempt lease) := by
      rw [he.view_self]
      simp [JobView.addAttempt, JobView.setState, hj]
    refine .turned hj' ?_ (.claimed hwaiting rfl)
    rw [he.view_self]
    rfl
  · exact .of_view hj (he.view_of_ne hk)

theorem pqHeartbeat_fate {lease : Option ℤ}
    (h : pqHeartbeat db clock env job token lease = .ok (reply, db')) :
    Fate db db' clock call k j := by
  rcases pqHeartbeat_spec h with ⟨rfl, -⟩ | ⟨j₀, hj₀, howns, -, -, hlease, he⟩
  · exact .of_view hj rfl
  · exact .of_effect hj he fun _ => ⟨JobRow.renewed clock lease, rfl, rfl, rfl⟩

end

theorem pqFinalize_fate {b : Builtins} {uri sha : Option String} (hg : Jobs.Good Set.univ db.view)
    (hj : (db.view k).job = some j) (hstage : j.stage ≠ .noop)
    (h : pqFinalize b db clock env job token uri sha = .ok (reply, db')) :
    Fate db db' clock call k j := by
  rcases pqFinalize_spec h with ⟨j₀, hj₀, -, h₁⟩ | ⟨hnoop, h₁⟩
  · rcases pdFinalize_spec h₁ with ⟨rfl, -⟩ | ⟨a, u, s, howns, ha, -, hopen, h₂⟩
    · exact .of_view hj rfl
    obtain ⟨-, f, -, -, g, -, -, he⟩ := finishProcess_effect hg (key_eq hj₀) (pqOwns_iff.1 howns).1
      (attempt_of_owns howns ha) h₂
    by_cases hk : k = j₀.key
    · subst hk
      obtain rfl : j = j₀ := Option.some.inj (hj.symm.trans (key_eq hj₀))
      have hj' : (db'.view j.key).job = some (j.succeeded clock j.attemptId (some s)) := by
        rw [he.view_self]
        simp [JobView.setDelphi, JobView.setRun, JobView.setState, JobView.setAttempt, hj]
      refine .turned hj' ?_ (.succeeded (noOpen_iff.1 hopen) rfl rfl)
      rw [he.view_self]
      rfl
    · exact .of_view hj (he.view_of_ne hk)
  · rcases Queue.pqFinalize_spec h₁ with ⟨rfl, -⟩ | ⟨j₀, r, hj₀, hr, ⟨rfl, -⟩ | ⟨howns, hcases⟩⟩
    · exact .of_view hj rfl
    · exact .of_view hj rfl
    · rcases hcases with ⟨rfl, -⟩ | ⟨-, h₂⟩
      · exact .of_view hj rfl
      obtain ⟨hrunning, -, ⟨attempt, ha, hta⟩, -⟩ := pqOwns_iff.1 howns
      have hrid : r.runId = j₀.runId := congrArg Prod.snd (Table.find_eq_some.1 hr).2
      obtain ⟨db₁, moved, hpublish, -, -, -, he⟩ :=
        finishJob_effect hg (key_eq hj₀) hrunning (hta.trans ha.symm) hrid h₂
      obtain ⟨-, heads, rfl, -⟩ := publish_spec hpublish
      exact .of_view hj (he.view_of_ne (ne_of_stage hj hstage (key_eq hj₀) (hnoop j₀ hj₀)))

/-- A call with a signature of 000019 ends the attempts of noops only. -/
theorem pqEndAttempt_fate {action : EndAction} {error : Option String}
    (hg : Jobs.Good Set.univ db.view) (hj : (db.view k).job = some j) (hstage : j.stage ≠ .noop)
    (h : pqEndAttempt db clock env job token action error = .ok (reply, db')) :
    Fate db db' clock call k j := by
  obtain ⟨hnoop, h⟩ := pqEndAttempt_spec h
  rcases Queue.pqEndAttempt_spec h with ⟨rfl, -⟩ | ⟨j₀, j', hj₀, howns, -, -, -, h₁⟩
  · exact .of_view hj rfl
  · obtain ⟨-, he⟩ := pqTerminateAttempt_effect hg (key_eq hj₀) (pqOwns_iff.1 howns).1 h₁
    exact .of_view hj (he.view_of_ne (ne_of_stage hj hstage (key_eq hj₀) (hnoop j₀ hj₀)))

theorem pqCancel_fate {version : Option ℤ} (hg : Jobs.Good Set.univ db.view)
    (hj : (db.view k).job = some j)
    (h : pqCancel db clock env job version = .ok (reply, db')) :
    Fate db db' clock (.queue (.cancel env job version)) k j := by
  rcases pqCancel_spec hg h with ⟨rfl, -⟩ | ⟨j₀, hj₀, hterminal, hversion, -, -, he⟩
  · exact .of_view hj rfl
  by_cases hk : k = (env, job)
  · subst hk
    obtain rfl : j = j₀ := Option.some.inj (hj.symm.trans hj₀)
    have hj' : (db'.view (env, job)).job = some (j.cancelled (clock.read 1)) := by
      rw [he.view_self]
      simp [JobView.setRun, JobView.setState, JobView.setAttempt, hj]
    refine .turned hj' ?_ (.cancelled (by rw [hversion]) hterminal rfl)
    rw [he.view_self]
    rfl
  · exact .of_view hj (he.view_of_ne hk)

/-- Without a proof of exit nothing happens. -/
theorem pqEndAttemptProven_confirmed {action : Arg EndAction} {error : Option String}
    {exitConfirmed : Option Bool} {eligibleAt : Option Time}
    (h : pqEndAttemptProven db clock env job token action error exitConfirmed eligibleAt =
      .ok (reply, db')) : db' = db ∨ exitConfirmed = some true := by
  rcases pqEndAttemptProven_spec h with h | ⟨-, -, -, -, -, -, -, -, h, -⟩
  · exact .inl h
  · exact .inr h

theorem Proven.fate {action : Arg EndAction} (hj : (db.view k).job = some j)
    (hcall : ∀ act, action = some act → call.ends = some ((env, job), token, act))
    (h : Proven db db' clock (env, job) token action) : Fate db db' clock call k j := by
  cases h with
  | same h => exact .of_view hj (by rw [h])
  | confirmed he => exact .of_effect hj he fun _ => ⟨id, by simp [JobView.setAttempt], rfl, rfl⟩
  | @ended db₁ j₀ j' a now act he hj₀ hstage hact ha howns hstate hends =>
    have hkey : j₀.key = (env, job) := Database.key_of_view hj₀
    by_cases hk : k = (env, job)
    · subst hk
      obtain rfl : j = j₀ := Option.some.inj (hj.symm.trans hj₀)
      rw [← hkey] at he hcall ⊢
      refine .turned hends.job ?_ (.ended (hcall act hact) howns hstate)
      rw [hends.requests, he.view_self]
      rfl
    · refine .of_view hj ?_
      rw [hends.others k (by rw [hkey]; exact hk), he.view_of_ne hk]

/-! ## Reaping -/

theorem ReapedProcess.others (h : ReapedProcess db db' clock k) {k' : JobKey} (hk : k' ≠ k) :
    db'.view k' = db.view k' := by
  cases h with
  | same h => rw [h]
  | parked hj _ _ _ _ hends | moved hj _ _ _ _ hends =>
    exact hends.others k' (by rwa [show JobRow.key _ = k from Database.key_of_view hj])

/-- What the reaper does to a process that it comes to, where other calls may come before and after. -/
theorem ReapedProcess.fate {db₀ db₁ : Database} {clock' : Clock} (hj : (db.view k).job = some j)
    (hstage : j.stage ≠ .noop) (h₀ : db₀.view k = db.view k) (h₁ : db'.view k = db₁.view k)
    (hcall : (k, clock') ∈ call.reaps db clock) (h : ReapedProcess db₀ db₁ clock' k) :
    Fate db db' clock call k j := by
  cases h with
  | same h => exact .of_view hj (by rw [h₁, h, h₀])
  | @parked i j' hi hs hrunning hspent hstate hends =>
    obtain rfl : i = j := Option.some.inj (hi.symm.trans (h₀ ▸ hj))
    have hk : i.key = k := Database.key_of_view hj
    have hjob := hends.job
    have hrequests := hends.requests
    rw [hk] at hjob hrequests
    exact .turned (h₁ ▸ hjob) (by rw [h₁, hrequests, h₀]) (.expired hspent hstate)
  | @moved i j' hi hfree hlive hspent hfrom hends =>
    obtain rfl : i = j := Option.some.inj (hi.symm.trans (h₀ ▸ hj))
    have hk : i.key = k := Database.key_of_view hj
    have hjob := hends.job
    have hrequests := hends.requests
    rw [hk] at hjob hrequests
    obtain ⟨hexit, hresolved⟩ := hfree hstage
    rw [h₀] at hexit hresolved
    have hdue : Reapable (db.view k) clock' i := ⟨hexit, hresolved, hlive hstage,
      hfrom.imp (fun h => ⟨h.1, h.2.1⟩) fun h => ⟨h.1, h.2.1⟩⟩
    refine .turned (h₁ ▸ hjob) (by rw [h₁, hrequests, h₀]) (.reaped hcall hdue hspent fun ht => ?_)
    by_contra hlt
    have hstate : j'.state = .retryWait ∨ j'.state = .queued := by
      refine hfrom.imp (fun h => ?_) fun h => ?_ <;> rw [h.2.2, JobRow.unlessSpent, if_neg hlt]
    rcases hstate with h | h <;> rw [h] at ht <;> cases ht

theorem mem_reapCalls {clock' : Clock} {ids : List Uuid}
    (h : (k, clock') ∈ reapCalls env clock ids) : k.1 = env ∧ k.2 ∈ ids := by
  induction ids generalizing clock with
  | nil => cases h
  | cons id ids ih =>
    rcases mem_cons.1 h with heq | h
    · obtain rfl : k = (env, id) := congrArg Prod.fst heq
      exact ⟨rfl, mem_cons_self⟩
    · exact ⟨(ih h).1, mem_cons_of_mem _ (ih h).2⟩

/-- A page comes to a job once, and until then the job is as it was. -/
theorem reapEach_reaped {ids : List Uuid} {replies : List Reply} (hg : Jobs.Good Set.univ db.view)
    (hnodup : ids.Nodup)
    (h : reapEach (pqReapOne · · env ·) db clock ids = .ok (replies, db')) (k : JobKey) :
    db'.view k = db.view k ∨ ∃ clock' db₀ db₁, (k, clock') ∈ reapCalls env clock ids ∧
      db₀.view k = db.view k ∧ db'.view k = db₁.view k ∧ ReapedProcess db₀ db₁ clock' k := by
  induction ids generalizing db clock replies with
  | nil =>
    cases h
    exact .inl rfl
  | cons id ids ih =>
    obtain ⟨hfresh, hnodup⟩ := nodup_cons.1 hnodup
    obtain ⟨⟨reply, db₁⟩, h₁, h⟩ := bind_eq_ok.1 h
    obtain ⟨⟨rest, db₂⟩, h₂, h⟩ := bind_eq_ok.1 h
    cases h
    have hreaped := pqReapOne_reaped hg h₁
    have hrest := ih (hreaped.progress.good hg) hnodup h₂
    by_cases hk : k = (env, id)
    · subst hk
      rcases hrest with hsame | ⟨clock', -, -, hmem, -⟩
      · exact .inr ⟨clock, db, db₁, mem_cons_self, rfl, hsame, hreaped⟩
      · exact absurd (mem_reapCalls hmem).2 hfresh
    · have hsame := hreaped.others hk
      rcases hrest with hrest | ⟨clock', db₀, db₂, hmem, h₀, h₂, hr⟩
      · exact .inl (hrest.trans hsame)
      · exact .inr ⟨clock', db₀, db₂, mem_cons_of_mem _ hmem, h₀.trans hsame, h₂, hr⟩

theorem jobPage_nodup (db : Database) (env : String) (after : Option Uuid) (limit : ℕ)
    (p : JobRow → Bool) : (jobPage db env after limit p).Nodup := by
  refine List.Nodup.sublist (take_sublist _ _) ?_
  exact (jobIds_sorted fun _ h => (of_decide_eq_true h).1).imp ne_of_lt

theorem reapEach_fate {ids : List Uuid} {replies : List Reply} (hg : Jobs.Good Set.univ db.view)
    (hj : (db.view k).job = some j) (hstage : j.stage ≠ .noop) (hnodup : ids.Nodup)
    (hcall : call.reaps db clock = reapCalls env clock ids)
    (h : reapEach (pqReapOne · · env ·) db clock ids = .ok (replies, db')) :
    Fate db db' clock call k j := by
  rcases reapEach_reaped hg hnodup h k with hsame | ⟨clock', db₀, db₁, hmem, h₀, h₁, hreaped⟩
  · exact .of_view hj hsame
  · exact hreaped.fate hj hstage h₀ h₁ (hcall ▸ hmem)

/-! ## Every call -/

variable {inst : Installed} {b : Builtins}

theorem queueBody_fate {call : Queue.Call} {answer : Queue.Answer} (hg : Jobs.Good Set.univ db.view)
    (hj : (db.view k).job = some j) (hstage : j.stage ≠ .noop)
    (h : queueBody b db clock call = .ok (answer, db')) : Fate db db' clock (.queue call) k j := by
  cases call with
  | enqueue a =>
    obtain ⟨reply, -, h⟩ := answering_eq_ok h
    rcases pqEnqueue_spec h with ⟨q, -, rfl, -⟩ | ⟨-, -, x, he⟩
    · exact .of_view hj rfl
    refine .of_view hj ?_
    rw [he.view hg, update_of_ne]
    rintro rfl
    rw [he.job_fresh] at hj
    cases hj
  | claim env priority owner attempt lease =>
    obtain ⟨reply, -, h⟩ := answering_eq_ok h
    rcases pqClaim_spec h with ⟨rfl, -⟩ | ⟨o, i, j₀, hj₀, -, hc, h₁⟩
    · exact .of_view hj rfl
    · exact claimJob_fate hj hj₀ hc.2.2.1 h₁
  | heartbeat env job token lease =>
    obtain ⟨reply, -, h⟩ := answering_eq_ok h
    exact pqHeartbeat_fate hj h
  | finalize env job token uri sha =>
    obtain ⟨reply, -, h⟩ := answering_eq_ok h
    exact pqFinalize_fate hg hj hstage h
  | fail | release | park =>
    obtain ⟨reply, -, h⟩ := answering_eq_ok h
    exact pqEndAttempt_fate hg hj hstage h
  | due env after limit =>
    cases h
    exact .of_view hj rfl
  | reapOne env job =>
    obtain ⟨r, -, h⟩ := answering_eq_ok h
    have hreaped := pqReapOne_reaped hg h
    by_cases hk : k = (env, job)
    · subst hk
      exact hreaped.fate hj hstage rfl rfl (mem_singleton_self _)
    · exact .of_view hj (hreaped.others hk)
  | reap env after limit =>
    obtain ⟨page, -, h⟩ := answering_eq_ok h
    unfold pqReap at h
    split at h
    · cases h
    · obtain ⟨⟨replies, db₁⟩, h₁, h⟩ := bind_eq_ok.1 h
      cases h
      exact reapEach_fate hg hj hstage (jobPage_nodup _ _ _ _ _) rfl h₁
  | cancel env job version =>
    obtain ⟨reply, -, h⟩ := answering_eq_ok h
    exact pqCancel_fate hg hj h

theorem body_fate {answer : Answer} (hg : Jobs.Good Set.univ db.view)
    (hj : (db.view k).job = some j) (hstage : j.stage ≠ .noop)
    (h : call.body inst b db clock = .ok (answer, db')) : Fate db db' clock call k j := by
  cases call with
  | queue call =>
    obtain ⟨r, -, h⟩ := map_eq_ok h
    exact queueBody_fate hg hj hstage h
  | claimClass env priority owner attempt lease cls =>
    obtain ⟨r, -, h⟩ := replying_eq_ok h
    rcases pqClaimClass_spec h with ⟨rfl, -⟩ | ⟨o, i, j₀, c, hj₀, hc, h₁⟩
    · exact .of_view hj rfl
    · exact claimJob_fate hj hj₀ hc.1.2.2.1 h₁
  | endAttempt env job token action error exitConfirmed eligibleAt =>
    obtain ⟨r, -, h⟩ := replying_eq_ok h
    rcases pqEndAttemptProven_confirmed h with rfl | rfl
    · exact .of_view hj rfl
    · exact (pqEndAttemptProven_proven hg h).fate hj fun act hact => by rw [hact]; rfl
  | failProven | releaseProven | parkProven =>
    obtain ⟨r, -, h⟩ := replying_eq_ok h
    rcases pqEndAttemptProven_confirmed h with rfl | rfl
    · exact .of_view hj rfl
    · exact (pqEndAttemptProven_proven hg h).fate hj fun act hact => by cases hact; rfl
  | reapClass env after limit cls =>
    obtain ⟨page, -, h⟩ := map_eq_ok h
    obtain ⟨l, c, replies, rfl, rfl, h₁⟩ := pqReapClass_spec h
    exact reapEach_fate hg hj hstage (jobPage_nodup _ _ _ _ _) rfl h₁
  | enqueue a =>
    obtain ⟨r, rfl, h₁⟩ := replying_eq_ok h
    rcases pdEnqueue_spec hg h₁ with ⟨⟨requests, rfl⟩, -⟩ | ⟨stage, scope, requests, -, -,
      -, -, he, -⟩
    · exact .of_view hj rfl
    obtain ⟨generation, hview⟩ := he.view
    refine .of_view hj ?_
    rw [hview, update_of_ne]
    · rfl
    rintro rfl
    have hfresh : (db.view (a.env, a.jobId)).job = none := he.fresh
    rw [hfresh] at hj
    cases hj
  | releaseScope env scope =>
    cases h
    rcases pdReleaseScope_spec db env scope with ⟨h, -⟩ | ⟨g, hfind, hended, hclosed, h⟩
    · exact .of_view hj (by rw [h])
    · exact .of_view hj (by rw [h]; rfl)
  | providerIntent env job token request provider digest =>
    obtain ⟨r, -, h⟩ := map_eq_ok h
    obtain ⟨-, -, -, -, ⟨-, -, -, -, -, rfl⟩ | ⟨request, attempt, p, d, -, -, -, -, h₁⟩⟩ :=
      pdProviderIntent_spec h
    · exact .of_view hj rfl
    · exact .of_effect hj (intentRow_effect h₁) fun _ =>
        ⟨id, by simp [JobView.addRequest], rfl, rfl⟩
  | providerUpdate env job token request state batch =>
    obtain ⟨r, -, h⟩ := map_eq_ok h
    obtain ⟨r, s, -, hfind, hkey, -, -, -, -, h₁⟩ := pdProviderUpdate_spec h
    exact .of_effect hj (recordState_effect hfind hkey h₁) fun _ =>
      ⟨id, by simp [JobView.setRequest], rfl, rfl⟩
  | log l =>
    obtain ⟨u, -, h⟩ := map_eq_ok (f := fun _ : Unit => Answer.logged) h
    unfold insertLog at h
    split at h
    · cases h
    · obtain ⟨db₁, h₁, h⟩ := bind_eq_ok.1 h
      cases h
      obtain ⟨t, -, rfl⟩ := write_eq_ok.1 h₁
      exact .of_view hj rfl

/-- What a step does to a job that is not a noop. -/
theorem Step.fate {e : Event} (hg : Jobs.Good Set.univ db.view) (hj : (db.view k).job = some j)
    (hstage : j.stage ≠ .noop) (h : Step inst b db e db') : Fate db db' e.clock e.call k j := by
  rcases h with ⟨answer, -, h⟩ | ⟨error, -, -, rfl⟩
  · exact body_fate hg hj hstage (exec_eq_ok h).1
  · exact .of_view hj rfl

end Polis.Delphi
