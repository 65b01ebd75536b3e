import Polis.Delphi.Fate

/-!
# One process for each job

A job that is not a noop runs as a process, and the queue cannot see processes: it sees the proofs of
their exits. Over any calls, at most one process of a job has not proved its exit, and until it has the
job is neither claimed again nor dead, whatever becomes of its lease.

Reference: `server/postgres/migrations/000023_create_delphi_foundation.sql`.
-/

namespace Polis.Delphi

open Queue List Function Option JobView AttemptRow

/-! ## The statement -/

/-- What the tables say about a job that is not a noop. -/
structure OneProcess (db : Database) (j : JobRow) : Prop where
  one : ∀ a ∈ db.attemptsOf j, ∀ a' ∈ db.attemptsOf j, a.processExitConfirmedAt = none →
    a'.processExitConfirmedAt = none → a = a'
  alive : ∀ a ∈ db.attemptsOf j, a.processExitConfirmedAt = none →
    j.state = .running ∧ j.attemptId = some a.attemptId ∨ j.state = .parked ∨ j.state = .cancelled
  succeeded : j.state = .succeeded → ∀ a ∈ db.attemptsOf j, a.processExitConfirmedAt.isSome
  counted : 0 ≤ j.parkedAttemptCount ∧ j.parkedAttemptCount ≤ j.attemptCount
  status : ∃ d, db.delphiJobs.find j.jobId = some d ∧ d.env = j.env ∧ d.status = j.state

/-- The job that a claim took. -/
def Event.claimed (e : Event) : Option JobRow :=
  match e.call, e.answer with
  | .queue (.claim ..), .ok (.queue (.reply r)) | .claimClass .., .ok (.queue (.reply r)) =>
    if r.outcome = .owned then r.job else none
  | _, _ => none

/-- A claim takes a job only if every process of it has exited and the provider holds no request that
the job does not know of. -/
def ClaimsExited (db : Database) (e : Event) : Prop :=
  ∀ j, e.claimed = some j → j.stage ≠ .noop →
    (∀ a ∈ db.attemptsOf j, a.processExitConfirmedAt.isSome) ∧
      ∀ r ∈ db.providerRequests.rows, (r.env, r.jobId) = j.key →
        r.state ≠ .intent ∧ r.state ≠ .submissionUnknown

/-- The lease of a running job has expired before the call. -/
def Expired (j : JobRow) (clock : Clock) : Prop :=
  j.state = .running ∧ ∀ i, j.lockedUntil.any (· ≤ clock.read i)

/-- A job whose lease has expired keeps its budget, and as long as its process may be alive the job is
neither claimable nor dead. -/
def ExpiryNeutral (db : Database) (e : Event) (db' : Database) : Prop :=
  ∀ j ∈ db.jobs.rows, j.stage ≠ .noop → Expired j e.clock → ∃ j' ∈ db'.jobs.rows, j'.key = j.key ∧
    j'.attemptCount - j'.parkedAttemptCount = j.attemptCount - j.parkedAttemptCount ∧
      (j'.state.waiting ∨ j'.state = .dead →
        ∀ a ∈ db'.attemptsOf j', a.processExitConfirmedAt.isSome)

/-! ## What every move keeps -/

section Moves

variable {v v' : JobView} {j j' : JobRow}

/-- The attempt has not proved the exit of its process. -/
def Unproven (v : JobView) (id : Uuid) : Prop :=
  ∃ a ∈ v.attempts, a.attemptId = id ∧ a.processExitConfirmedAt = none

/-- What is known of a job that is not a noop. -/
structure Attested (v : JobView) (j : JobRow) : Prop where
  one : ∀ id id', Unproven v id → Unproven v id' → id = id'
  alive : ∀ id, Unproven v id →
    j.state = .running ∧ j.attemptId = some id ∨ j.state = .parked ∨ j.state = .cancelled
  status : ∃ d, v.delphi = some d ∧ d.status = j.state

/-- A proof of exit is not taken back. -/
theorem unproven_setAttempt {id : Option Uuid} {f : AttemptRow → AttemptRow} {x : Uuid}
    (hf : AttemptRow.Keeps f)
    (hexit : ∀ a, (f a).processExitConfirmedAt = none → a.processExitConfirmedAt = none)
    (h : Unproven (v.setAttempt id f) x) : Unproven v x := by
  obtain ⟨a, ha, hid, hnone⟩ := h
  obtain ⟨y, hy, rfl⟩ := mem_setAttempt.1 ha
  split at hid
  · next heq =>
    rw [if_pos heq] at hnone
    exact ⟨y, hy, by rw [← hid, (hf y).2.1], hexit y hnone⟩
  · next heq =>
    rw [if_neg heq] at hnone
    exact ⟨y, hy, hid, hnone⟩

theorem unproven_congr {x : Uuid} (hattempts : v'.attempts = v.attempts) (h : Unproven v' x) :
    Unproven v x := by
  obtain ⟨a, ha, h⟩ := h
  exact ⟨a, hattempts ▸ ha, h⟩

theorem not_unproven {x : Uuid} (h : v.ExitsConfirmed) : ¬ Unproven v x := by
  rintro ⟨a, ha, -, hnone⟩
  have hsome := h a ha
  rw [hnone] at hsome
  cases hsome

/-- With the exit of the running attempt confirmed, no exit is left to prove. -/
theorem Attested.not_unproven (h : Attested v j) (hrunning : j.state = .running)
    (hcurrent : v.CurrentConfirmed j) {x : Uuid} : ¬ Unproven v x := by
  intro hx
  obtain ⟨a, ha, hid, hnone⟩ := hx
  rcases h.alive x ⟨a, ha, hid, hnone⟩ with ⟨-, hx⟩ | hs | hs
  · have hsome := hcurrent a ha (by rw [hid, hx])
    rw [hnone] at hsome
    cases hsome
  · rw [hrunning] at hs
    cases hs
  · rw [hrunning] at hs
    cases hs

/-- The logical job of a job that changes its state. -/
theorem status_setState {f : JobRow → JobRow} {now : Time} (hj : v.job = some j)
    (hstage : (f j).stage ≠ .noop) (h : ∃ d, v.delphi = some d) :
    ∃ d, (v.setState now f).delphi = some d ∧ d.status = (f j).state := by
  obtain ⟨d, hd⟩ := h
  exact ⟨d.sync (f j) now, by simp [setState, hj, hstage, hd], rfl⟩

/-- The views in which a job that is not a noop is attested. -/
def AttestedView (v : JobView) : Prop := ∀ j, v.job = some j → j.stage ≠ .noop → Attested v j

/-- A view of the row `j'` whose exits to prove are those from before. -/
private theorem attestedView_of (j' : JobRow) (hj' : v'.job = some j')
    (h : j'.stage ≠ .noop → Attested v' j') : AttestedView v' := by
  intro i hi hstage
  obtain rfl : j' = i := Option.some.inj (hj'.symm.trans hi)
  exact h hstage

theorem Move.attested (h : Move v v') (ha : AttestedView v) : AttestedView v' := by
  cases h with
  | @claim j hj hwaiting hspent hfree clock owner attempt lease hlease hfresh now started =>
    refine attestedView_of (j.claimed clock owner attempt lease)
      (by simp [addAttempt, setState, hj]) fun hstage => ?_
    have hnew : ∀ x, Unproven ((v.setState now (JobRow.claimed clock owner attempt lease)).addAttempt
        (.opened j owner attempt started)) x → attempt = x := by
      rintro x ⟨a, hmem, hid, hnone⟩
      rcases mem_append.1 hmem with hold | hnew
      · exact absurd ⟨a, hold, hid, hnone⟩ (not_unproven (hfree hstage).1)
      · rw [mem_singleton.1 hnew] at hid
        exact hid
    refine ⟨fun x y hx hy => (hnew x hx).symm.trans (hnew y hy), fun x hx => .inl ⟨rfl, ?_⟩, ?_⟩
    · show some attempt = some x
      rw [hnew x hx]
    · obtain ⟨d, hd, -⟩ := (ha j hj hstage).status
      exact status_setState (f := JobRow.claimed clock owner attempt lease) hj hstage ⟨d, hd⟩
  | @renew j hj hrunning clock lease hlease =>
    refine attestedView_of (j.renewed clock lease) (by simp [setJob, hj])
      fun hstage => ?_
    obtain ⟨hone, halive, hstatus⟩ := ha j hj hstage
    exact ⟨hone, halive, hstatus⟩
  | @succeed j hj hrunning hexit clock sha ended now f hf hfstate =>
    refine attestedView_of (j.succeeded clock j.attemptId sha)
      (by simp [setRun, setState, setAttempt, hj]) fun hstage => ?_
    have hja := ha j hj hstage
    have hnone : ∀ x, ¬ Unproven (((v.setAttempt j.attemptId
        (succeed sha ended)).setState now
          (JobRow.succeeded clock j.attemptId sha)).setRun f) x := by
      intro x hx
      exact hja.not_unproven hrunning (hexit hstage).1
        (unproven_setAttempt (succeed_keeps ended sha) (fun _ h => h) hx)
    refine ⟨fun x y hx => absurd hx (hnone x), fun x hx => absurd hx (hnone x), ?_⟩
    obtain ⟨d, hd, -⟩ := hja.status
    exact status_setState (v := v.setAttempt j.attemptId (succeed sha ended))
      (f := JobRow.succeeded clock j.attemptId sha) hj hstage ⟨d, hd⟩
  | @digest f hf hstatus =>
    intro i hi hstage
    obtain ⟨hone, halive, d, hd, hds⟩ := ha i hi hstage
    exact ⟨hone, halive, f d, by simp [setDelphi, hd], by rw [hstatus, hds]⟩
  | @terminate j hj hrunning state hstate hexit clock outcome houtcome error immediate ended now =>
    refine attestedView_of (j.terminated clock state error immediate)
      (by simp [setState, setAttempt, hj]) fun hstage => ?_
    have hja := ha j hj hstage
    have hback : ∀ x, Unproven (((v.setAttempt j.attemptId
        (terminate outcome error ended)).setState now
          (JobRow.terminated clock state error immediate)).killed state) x → Unproven v x := by
      intro x hx
      have hx' : Unproven (v.setAttempt j.attemptId (terminate outcome error ended)) x :=
        unproven_congr (by simp [setState]) hx
      exact unproven_setAttempt (terminate_keeps ended outcome error) (fun _ h => h) hx'
    refine ⟨fun x y hx hy => hja.one x y (hback x hx) (hback y hy), fun x hx => ?_, ?_⟩
    · rcases hexit hstage with hparked | ⟨hcurrent, -⟩
      · exact .inr (.inl hparked)
      · exact absurd (hback x hx) (hja.not_unproven hrunning hcurrent)
    · obtain ⟨d, hd, -⟩ := hja.status
      rw [killed_delphi]
      exact status_setState (v := v.setAttempt j.attemptId
        (terminate outcome error ended))
        (f := JobRow.terminated clock state error immediate) hj hstage ⟨d, hd⟩
  | @unpark j hj hparked =>
    refine attestedView_of j.unpark (by simp [setJob, hj]) fun hstage => ?_
    obtain ⟨hone, halive, hstatus⟩ := ha j hj hstage
    exact ⟨hone, halive, hstatus⟩
  | @postpone j hj hparked eligibleAt =>
    refine attestedView_of { j with eligibleAt } (by simp [setJob, hj])
      fun hstage => ?_
    obtain ⟨hone, halive, hstatus⟩ := ha j hj hstage
    exact ⟨hone, halive, hstatus⟩
  | confirm id now =>
    intro i hi hstage
    obtain ⟨hone, halive, hstatus⟩ := ha i hi hstage
    have hback : ∀ x, Unproven (v.setAttempt id (confirmExit now)) x →
        Unproven v x := by
      intro x hx
      refine unproven_setAttempt (confirmExit_keeps now) (fun a hnone => ?_) hx
      cases hexit : a.processExitConfirmedAt with
      | none => rfl
      | some t => simp [confirmExit, hexit] at hnone
    exact ⟨fun x y hx hy => hone x y (hback x hx) (hback y hy), fun x hx => halive x (hback x hx),
      hstatus⟩
  | @wake j hj hparked state hstate hexit updated now =>
    refine attestedView_of (j.woken state updated) (by simp [setState, hj])
      fun hstage => ?_
    have hja := ha j hj hstage
    have hnone : ∀ x, ¬ Unproven ((v.setState now (JobRow.woken state updated)).killed state) x :=
      fun x hx => not_unproven (hexit hstage).1
        (unproven_congr (by simp [setState]) hx)
    refine ⟨fun x y hx => absurd hx (hnone x), fun x hx => absurd hx (hnone x), ?_⟩
    obtain ⟨d, hd, -⟩ := hja.status
    rw [killed_delphi]
    exact status_setState (f := JobRow.woken state updated) hj hstage ⟨d, hd⟩
  | @cancel j hj hterminal ended updated now =>
    refine attestedView_of (j.cancelled updated)
      (by simp [setRun, setState, setAttempt, hj]) fun hstage => ?_
    have hja := ha j hj hstage
    refine ⟨fun x y hx hy => hja.one x y ?_ ?_, fun x hx => .inr (.inr rfl), ?_⟩
    · exact unproven_setAttempt (cancel_keeps ended) (fun _ h => h) hx
    · exact unproven_setAttempt (cancel_keeps ended) (fun _ h => h) hy
    · obtain ⟨d, hd, -⟩ := hja.status
      exact status_setState (v := v.setAttempt j.attemptId (cancel ended))
        (f := JobRow.cancelled updated) hj hstage ⟨d, hd⟩
  | intent | record =>
    intro i hi hstage
    obtain ⟨hone, halive, hstatus⟩ := ha i hi hstage
    exact ⟨hone, halive, hstatus⟩

theorem Reach.attested {views views' : JobKey → JobView}
    (h : Jobs.Reach Set.univ views views') (ha : ∀ k, AttestedView (views k)) (k : JobKey) :
    AttestedView (views' k) := by
  induction h generalizing k with
  | refl => exact ha k
  | tail hreach hstep ih =>
    cases hstep with
    | @enter i j r d hnone hj hstage hkey hrun hfresh hdelphi hroot =>
      by_cases hk : k = i
      · subst hk
        rw [update_self]
        refine attestedView_of j rfl fun hne => ⟨?_, ?_, ?_⟩
        · rintro x y ⟨a, ha, -⟩
          cases ha
        · rintro x ⟨a, ha, -⟩
          cases ha
        · obtain ⟨d', rfl, hstatus⟩ := hdelphi hne
          exact ⟨d', rfl, by rw [hstatus, hj.state]⟩
      · rw [update_of_ne hk]
        exact ih k
    | @move i v' hmove =>
      by_cases hk : k = i
      · subst hk
        rw [update_self]
        exact Move.attested hmove (ih k)
      · rw [update_of_ne hk]
        exact ih k

end Moves

/-! ## Every run -/

variable {db db' : Database} {k : JobKey} {j : JobRow} {inst : Installed} {b : Builtins}

/-- Every database that the calls reach is attested. -/
theorem reachable_attested {conversations : List ℤ} {es : List Event}
    (h : Run (Step inst b) (.fresh conversations) es db) (k : JobKey) : AttestedView (db.view k) := by
  have hfresh : ∀ k, AttestedView ((Database.fresh conversations).view k) :=
    fun k j (hj : none = some j) => nomatch hj
  refine (h.keeps (fun db => Jobs.Good Set.univ db.view ∧ ∀ k, AttestedView (db.view k))
    ⟨fresh_good conversations, hfresh⟩ fun db e db' hinv hs => ?_).2 k
  have hreach := hs.reach hinv.1
  exact ⟨hinv.1.of_reach hreach, Reach.attested hreach hinv.2⟩

theorem Attested.oneProcess (hj : (db.view j.key).job = some j) (h : Attested (db.view j.key) j) :
    OneProcess db j := by
  have hunproven : ∀ a ∈ db.attemptsOf j, a.processExitConfirmedAt = none →
      Unproven (db.view j.key) a.attemptId := fun a ha hnone => ⟨a, ha, rfl, hnone⟩
  have hcounted := (Database.checked hj).2.1
  refine ⟨fun a ha a' ha' hnone hnone' => ?_, fun a ha hnone => h.alive _ (hunproven a ha hnone),
    fun hsucceeded a ha => ?_, ⟨hcounted.1, hcounted.2.1⟩, ?_⟩
  · exact inj_on_of_nodup_map attemptsOf_nodup ha ha'
      (h.one _ _ (hunproven a ha hnone) (hunproven a' ha' hnone'))
  · rw [isSome_iff_ne_none]
    intro hnone
    have halive := h.alive _ (hunproven a ha hnone)
    rw [hsucceeded] at halive
    rcases halive with ⟨hs, -⟩ | hs | hs <;> cases hs
  · obtain ⟨d, hd, hstatus⟩ := h.status
    obtain ⟨hfind, henv⟩ := filter_eq_some_iff.1 hd
    exact ⟨d, hfind, of_decide_eq_true henv, hstatus⟩

theorem claimJob_claimed {clock : Clock} {owner attempt : Uuid} {lease : Option ℤ} {reply : Reply}
    {j₀ : JobRow} (hj₀ : (db.view j₀.key).job = some j₀)
    (h : claimJob db clock j₀ owner attempt lease = .ok (reply, db')) (hj : reply.job = some j) :
    j.key = j₀.key ∧ j.stage = j₀.stage := by
  obtain ⟨-, hjob, -⟩ := claimJob_effect hj₀ h
  obtain rfl := Option.some.inj (hj.symm.trans hjob)
  exact ⟨rfl, rfl⟩

theorem Event.claimed_eq_some {e : Event} (h : e.claimed = some j) :
    ∃ r, e.answer = .ok (.queue (.reply r)) ∧ r.outcome = .owned ∧ r.job = some j ∧
      ((∃ env priority owner attempt lease,
        e.call = .queue (.claim env priority owner attempt lease)) ∨
      ∃ env priority owner attempt lease cls,
        e.call = .claimClass env priority owner attempt lease cls) := by
  unfold Event.claimed at h
  split at h
  · next r hcall hanswer =>
    split at h
    · next hout => exact ⟨r, hanswer, hout, h, .inl ⟨_, _, _, _, _, hcall⟩⟩
    · cases h
  · next r hcall hanswer =>
    split at h
    · next hout => exact ⟨r, hanswer, hout, h, .inr ⟨_, _, _, _, _, _, hcall⟩⟩
    · cases h
  · cases h

theorem Step.claims {e : Event} (h : Step inst b db e db') : ClaimsExited db e := by
  intro j hj hstage
  obtain ⟨r, hanswer, hout, hjob, hcall⟩ := Event.claimed_eq_some hj
  rcases h with ⟨answer, hok, h⟩ | ⟨error, herror, -⟩
  swap
  · rw [hanswer] at herror
    cases herror
  obtain rfl : answer = .queue (.reply r) := Except.ok.inj (hok.symm.trans hanswer)
  have hbody := (exec_eq_ok h).1
  rcases hcall with ⟨env, priority, owner, attempt, lease, hcall⟩ |
    ⟨env, priority, owner, attempt, lease, cls, hcall⟩
  · rw [hcall] at hbody
    obtain ⟨x, hx, hbody⟩ := map_eq_ok hbody
    obtain ⟨r', hr', hclaim⟩ := answering_eq_ok hbody
    obtain rfl : r = r' := by
      rw [hr'] at hx
      injection hx with hx
      injection hx
    rcases pqClaim_spec hclaim with ⟨-, hnone⟩ | ⟨o, i, j₀, hj₀, hnoop, -, hclaim⟩
    · rw [hout] at hnone
      cases hnone
    · rw [(claimJob_claimed hj₀ hclaim hjob).2] at hstage
      exact absurd hnoop hstage
  · rw [hcall] at hbody
    obtain ⟨r', hr', hclaim⟩ := replying_eq_ok hbody
    obtain rfl : r = r' := by
      injection hr' with hr'
      injection hr'
    rcases pqClaimClass_spec hclaim with ⟨-, hnone⟩ | ⟨o, i, j₀, c, hj₀, hfree, hclaim⟩
    · rw [hout] at hnone
      cases hnone
    · have hkey := (claimJob_claimed hj₀ hclaim hjob).1
      obtain ⟨-, -, -, -, hexit, hresolved⟩ := hfree
      rw [← hkey] at hexit hresolved
      refine ⟨unconfirmed_eq_false.1 hexit, fun r hr hrk => ?_⟩
      have hunresolved := noUnresolved_iff.1 hresolved r
        (mem_filter.2 ⟨hr, decide_eq_true hrk⟩)
      constructor <;> rintro hs <;> rw [hs] at hunresolved <;> cases hunresolved

/-- A token does not own a job whose lease has expired. -/
theorem Expired.not_owns {clock : Clock} {token : Token} (h : Expired j clock) (i : ℕ) :
    pqOwns j token (clock.read i) = false := by
  by_contra howns
  obtain ⟨-, -, -, -, t, ht, hlt⟩ := pqOwns_iff.1 (by simpa using howns)
  obtain ⟨t', ht', hle⟩ := (any_eq_true _ _).1 (h.2 i)
  obtain rfl : t = t' := Option.some.inj (ht.symm.trans ht')
  exact absurd hlt (not_lt.2 (of_decide_eq_true hle))

theorem Step.expired {e : Event} (hg : Jobs.Good Set.univ db.view) (h : Step inst b db e db')
    (hj : (db.view k).job = some j) (hstage : j.stage ≠ .noop) (hexpired : Expired j e.clock) :
    ∃ j', (db'.view k).job = some j' ∧ j'.spent = j.spent := by
  cases h.fate hg hj hstage with
  | quiet hj' hspent hstate => exact ⟨_, hj', hspent⟩
  | turned hj' hrequests hturn =>
    cases hturn with
    | claimed hwaiting hstate =>
      rw [hexpired.1] at hwaiting
      cases hwaiting
    | ended hcall howns hstate =>
      rw [hexpired.not_owns] at howns
      cases howns
    | succeeded _ hspent | expired hspent | reaped _ _ hspent | cancelled _ _ hspent =>
      exact ⟨_, hj', hspent⟩

theorem Step.neutral {e : Event} {conversations : List ℤ} {es : List Event}
    (hrun : Run (Step inst b) (.fresh conversations) es db) (h : Step inst b db e db') :
    ExpiryNeutral db e db' := by
  intro j hj hstage hexpired
  have hg := reachable_good hrun
  have hview : (db.view j.key).job = some j := Table.find_of_mem hj
  obtain ⟨j', hj', hspent⟩ := h.expired hg hview hstage hexpired
  obtain ⟨hmem, hkey⟩ := Table.find_eq_some.1 hj'
  refine ⟨j', hmem, hkey, hspent, fun hstate a ha => ?_⟩
  obtain ⟨i, hi, hf⟩ := ((h.reach hg).follows hg j.key).job j hview
  obtain rfl : j' = i := Option.some.inj (hj'.symm.trans hi)
  have hview' : (db'.view j'.key).job = some j' := by
    rwa [show j'.key = j.key from hkey]
  have hone := (reachable_attested (hrun.snoc h) j'.key j' hview'
    (by rwa [hf.stage])).oneProcess hview'
  rw [isSome_iff_ne_none]
  intro hnone
  rcases hone.alive a ha hnone with ⟨hs, -⟩ | hs | hs <;> rw [hs] at hstate <;>
    rcases hstate with hstate | hstate <;> cases hstate

/-- Over any calls in any order: a job that is not a noop has at most one attempt whose process has not
been proved to have exited, and while there is one the job runs it, or is parked or cancelled; its
status is that of its logical job; no claim takes a job with such an attempt or with a request that
the provider may hold; and the end of a lease does not change the budget. -/
theorem one_live_process {conversations : List ℤ} {es : List Event}
    (h : Run (Step inst b) (.fresh conversations) es db) :
    (∀ j ∈ db.jobs.rows, j.stage ≠ .noop → OneProcess db j) ∧
      ∀ e db', Step inst b db e db' → ClaimsExited db e ∧ ExpiryNeutral db e db' := by
  refine ⟨fun j hj hstage => ?_, fun e db' hs => ⟨hs.claims, hs.neutral h⟩⟩
  have hview : (db.view j.key).job = some j := Table.find_of_mem hj
  exact (reachable_attested h j.key j hview hstage).oneProcess hview

/-- A full pipeline is claimed at time 1 for ten seconds. -/
private def claimedPipeline : List (Clock × Call) :=
  [(.still 0, .enqueue (sampleAdmission "scope" "first" 10 20)),
    (.still 1, .claimClass "dev" 1 (some 5) (some 6) (some 10) (some .delphi))]

theorem one_live_process_reaped :
    ∃ j ∈ (history .foundation noBuiltins [1] claimedPipeline).2.jobs.rows,
      OneProcess (history .foundation noBuiltins [1] claimedPipeline).2 j ∧ ∀ db' answer,
        Step .foundation noBuiltins (history .foundation noBuiltins [1] claimedPipeline).2
          ⟨.still (seconds 20), .queue (.reapOne "dev" 20), answer⟩ db' →
        ∃ j' ∈ db'.jobs.rows, j'.key = j.key ∧ j'.attemptCount - j'.parkedAttemptCount = 1 := by
  have hrun := history_run .foundation noBuiltins [1] claimedPipeline
  have hjob : ∃ j ∈ (history .foundation noBuiltins [1] claimedPipeline).2.jobs.rows,
      j.stage ≠ .noop ∧ j.state = .running ∧ j.lockedUntil.any (· ≤ seconds 20) ∧
        j.attemptCount - j.parkedAttemptCount = 1 := by
    decide +kernel
  generalize (history .foundation noBuiltins [1] claimedPipeline).2 = db at hrun hjob ⊢
  obtain ⟨j, hj, hstage, hrunning, hlock, hspent⟩ := hjob
  refine ⟨j, hj, (one_live_process hrun).1 j hj hstage, fun db' answer hs => ?_⟩
  obtain ⟨j', hj', hkey, hspent', -⟩ :=
    ((one_live_process hrun).2 _ _ hs).2 j hj hstage ⟨hrunning, fun _ => hlock⟩
  exact ⟨j', hj', hkey, hspent'.trans hspent⟩

end Polis.Delphi
