import Polis.Queue.JobView

/-!
# The state machine of a job

`Move` lists what a call can do to the view of one job, and `JobView.Sound` is what every move keeps.
`Jobs.Step` moves one job among many or admits a new one. The calls refine it, with the tables of 000019
as with those of 000023.
-/

namespace Polis.Queue

open Function List AttemptRow

variable {f : AttemptRow → AttemptRow}

/-- The state of the run of a job. -/
def JobState.runState : JobState → RunState
  | .succeeded => .succeeded
  | .dead => .dead
  | .cancelled => .cancelled
  | _ => .pending

theorem JobState.terminal_iff {s : JobState} : s.terminal = true ↔ s.runState ≠ .pending := by
  cases s <;> simp [JobState.terminal, JobState.runState]

theorem JobState.waiting_not_terminal {s : JobState} (h : s.waiting = true) :
    s.terminal = false := by
  cases s <;> simp_all [JobState.waiting, JobState.terminal]

theorem JobState.waiting_ne_running {s : JobState} (h : s.waiting = true) : s ≠ .running := by
  rintro rfl
  cases h

namespace JobView

variable (v : JobView)

/-- No process of the job may still be alive. -/
def ExitsConfirmed : Prop := ∀ a ∈ v.attempts, a.processExitConfirmedAt.isSome

/-- The provider may hold no request that the job does not know of. -/
def NoUnresolved : Prop := ∀ r ∈ v.requests, r.state.unresolved = false

def NoOpen : Prop := ∀ r ∈ v.requests, r.state.open = false

/-- The exit of the attempt that holds the job is confirmed. -/
def CurrentConfirmed (j : JobRow) : Prop :=
  ∀ a ∈ v.attempts, some a.attemptId = j.attemptId → a.processExitConfirmedAt.isSome

/-- A dead job takes its run along. -/
def killed (state : JobState) : JobView := if state = .dead then v.setRun RunRow.die else v

end JobView

def AttemptRow.confirmExit (now : Time) (a : AttemptRow) : AttemptRow :=
  { a with processExitConfirmedAt := a.processExitConfirmedAt <|> some now }

/-- A park that costs no attempt takes back its count. -/
def JobRow.unpark (j : JobRow) : JobRow :=
  { j with parkedAttemptCount := j.parkedAttemptCount - 1 }

/-- What a call does to a job. The stages that are not a noop need a proof of exit where a noop needs
none. -/
inductive Move : JobView → JobView → Prop
  | claim {v : JobView} {j : JobRow} (hj : v.job = some j) (hwaiting : j.state.waiting)
      (hspent : j.spent < j.maxAttempts)
      (hfree : j.stage ≠ .noop → v.ExitsConfirmed ∧ v.NoUnresolved)
      (clock : Clock) (owner attempt : Uuid) {lease : Option ℤ} (hlease : lease.isSome)
      (hfresh : ∀ a ∈ v.attempts, a.attemptId ≠ attempt) (now started : Time) :
      Move v ((v.setState now (JobRow.claimed clock owner attempt lease)).addAttempt
        (.opened j owner attempt started))
  | renew {v : JobView} {j : JobRow} (hj : v.job = some j) (hrunning : j.state = .running)
      (clock : Clock) {lease : Option ℤ} (hlease : lease.isSome) :
      Move v (v.setJob (JobRow.renewed clock lease))
  | succeed {v : JobView} {j : JobRow} (hj : v.job = some j) (hrunning : j.state = .running)
      (hexit : j.stage ≠ .noop → v.CurrentConfirmed j ∧ v.NoOpen) (clock : Clock)
      (sha : Option String) (ended now : Time) {f : RunRow → RunRow} (hf : RunRow.Keeps f)
      (hstate : ∀ r, (f r).state = .succeeded ∧ (f r).outputSha256 = sha) :
      Move v (((v.setAttempt j.attemptId (succeed sha ended)).setState now
        (JobRow.succeeded clock j.attemptId sha)).setRun f)
  | digest {v : JobView} {f : DelphiJobRow → DelphiJobRow} (hf : DelphiJobRow.Keeps f)
      (hstatus : ∀ d, (f d).status = d.status) : Move v (v.setDelphi f)
  | terminate {v : JobView} {j : JobRow} (hj : v.job = some j) (hrunning : j.state = .running)
      {state : JobState}
      (hstate : state = .retryWait ∧ j.spent < j.maxAttempts ∨ state = .parked ∨ state = .dead)
      (hexit : j.stage ≠ .noop → state = .parked ∨ v.CurrentConfirmed j ∧ v.NoUnresolved)
      (clock : Clock) {outcome : AttemptOutcome} (houtcome : outcome ≠ .running)
      (error : Option String) (immediate : Bool) (ended now : Time) :
      Move v (((v.setAttempt j.attemptId (terminate outcome error ended)).setState now
        (JobRow.terminated clock state error immediate)).killed state)
  | unpark {v : JobView} {j : JobRow} (hj : v.job = some j) (hparked : j.state = .parked) :
      Move v (v.setJob JobRow.unpark)
  | postpone {v : JobView} {j : JobRow} (hj : v.job = some j) (hparked : j.state = .parked)
      (eligibleAt : Time) : Move v (v.setJob fun j => { j with eligibleAt })
  | confirm {v : JobView} (id : Option Uuid) (now : Time) :
      Move v (v.setAttempt id (confirmExit now))
  | wake {v : JobView} {j : JobRow} (hj : v.job = some j) (hparked : j.state = .parked)
      {state : JobState} (hstate : state = .queued ∧ j.spent < j.maxAttempts ∨ state = .dead)
      (hexit : j.stage ≠ .noop → v.ExitsConfirmed ∧ v.NoUnresolved) (updated now : Time) :
      Move v ((v.setState now (JobRow.woken state updated)).killed state)
  | cancel {v : JobView} {j : JobRow} (hj : v.job = some j) (hterminal : j.state.terminal = false)
      (ended updated now : Time) :
      Move v (((v.setAttempt j.attemptId (cancel ended)).setState now
        (JobRow.cancelled updated)).setRun fun r => { r with state := .cancelled })
  | intent {v : JobView} {j : JobRow} (hj : v.job = some j) (hrunning : j.state = .running)
      (r : ProviderRow) (hclosed : v.NoOpen) : Move v (v.addRequest r)
  | record {v : JobView} (id : Uuid) {f : ProviderRow → ProviderRow} (hf : ProviderRow.Keeps f)
      (hopen : ∀ r ∈ v.requests, r.requestId = id → r.state.open = false →
        (f r).state = r.state)
      (hclose : ∀ r ∈ v.requests, r.requestId = id → r.state.open = true →
        (f r).state.open = false → ∃ j, v.job = some j ∧ j.state = .running)
      (hresolve : ∀ r ∈ v.requests, r.requestId = id → r.state.unresolved = false →
        (f r).state.unresolved = false) :
      Move v (v.setRequest id f)

/-! ## What every move keeps -/

/-- The rows of a job agree: its run shows its state, its attempts are those it counts, the one it
holds is the one that runs, and a job that waits has budget left. -/
structure JobView.Sound (v : JobView) (j : JobRow) : Prop where
  leased : j.leased
  run : ∃ r, v.run = some r ∧ (r.env, r.runId) = (j.env, j.runId) ∧
    r.state = j.state.runState ∧ (j.state = .succeeded → r.outputSha256 = j.outputSha256)
  count : j.attemptCount = v.attempts.length
  epochs : ∀ a ∈ v.attempts, a.leaseEpoch ≤ j.leaseEpoch
  current : ∀ a ∈ v.attempts, a.outcome = .running ↔ some a.attemptId = j.attemptId
  held : ∀ id ∈ j.attemptId, ∃ a ∈ v.attempts, a.attemptId = id ∧ some a.ownerId = j.ownerId ∧
    a.leaseEpoch = j.leaseEpoch
  budget : j.state.waiting → j.spent < j.maxAttempts

/-- A view without a job is empty. -/
structure JobView.Ok (v : JobView) : Prop where
  empty : v.job = none → v = {}
  sound : ∀ j, v.job = some j → v.Sound j

theorem JobRow.leased.attempt_none {j : JobRow} (h : j.leased) (hs : j.state ≠ .running) :
    j.attemptId = none := by
  rcases h with ⟨hs', -⟩ | ⟨-, -, h, -⟩
  · exact absurd hs' hs
  · exact h

theorem JobRow.leased.attempt_some {j : JobRow} (h : j.leased) (hs : j.state = .running) :
    ∃ id, j.attemptId = some id := by
  rcases h with ⟨-, -, h, -⟩ | ⟨hs', -⟩
  · exact Option.isSome_iff_exists.1 h
  · exact absurd hs hs'

namespace JobView

variable {v v' : JobView} {j : JobRow}

theorem mem_setAttempt {id : Option Uuid} {a : AttemptRow} :
    a ∈ (v.setAttempt id f).attempts ↔
      ∃ b ∈ v.attempts, a = if some b.attemptId = id then f b else b := by
  simp [setAttempt, eq_comm]

/-- A change that leaves the outcome and the identity of every attempt alone. -/
theorem Sound.setAttempt (h : v.Sound j) {id : Option Uuid}
    (hf : AttemptRow.Keeps f) (hout : ∀ a, (f a).outcome = a.outcome) :
    (v.setAttempt id f).Sound j := by
  refine { h with count := ?_, epochs := ?_, current := ?_, held := ?_ }
  · rw [h.count]
    simp [JobView.setAttempt]
  · intro a ha
    obtain ⟨b, hb, rfl⟩ := mem_setAttempt.1 ha
    split
    · rw [(hf b).2.2.2.2]
      exact h.epochs b hb
    · exact h.epochs b hb
  · intro a ha
    obtain ⟨b, hb, rfl⟩ := mem_setAttempt.1 ha
    split
    · rw [hout, (hf b).2.1]
      exact h.current b hb
    · exact h.current b hb
  · intro i hi
    obtain ⟨b, hb, hid, how, hep⟩ := h.held i hi
    refine ⟨_, mem_setAttempt.2 ⟨b, hb, rfl⟩, ?_⟩
    split
    · rw [(hf b).2.1, (hf b).2.2.2.1, (hf b).2.2.2.2]
      exact ⟨hid, how, hep⟩
    · exact ⟨hid, how, hep⟩

/-- A running job whose attempt ends: the job is no longer running and holds nothing. -/
theorem Sound.ended (h : v.Sound j) (hf : AttemptRow.Keeps f)
    (hout : ∀ a, (f a).outcome ≠ .running) (j' : JobRow) (r : RunRow) (d : Option DelphiJobRow)
    (hleased : j'.leased) (hstate : j'.state ≠ .running)
    (hrun : (r.env, r.runId) = (j'.env, j'.runId) ∧ r.state = j'.state.runState ∧
      (j'.state = .succeeded → r.outputSha256 = j'.outputSha256))
    (hcount : j'.attemptCount = j.attemptCount) (hepoch : j.leaseEpoch ≤ j'.leaseEpoch)
    (hbudget : j'.state.waiting → j'.spent < j'.maxAttempts) :
    JobView.Sound { v.setAttempt j.attemptId f with job := some j', run := some r, delphi := d }
      j' where
  leased := hleased
  run := ⟨r, rfl, hrun⟩
  count := by
    rw [hcount, h.count]
    simp [JobView.setAttempt]
  epochs a ha := by
    obtain ⟨b, hb, rfl⟩ := mem_setAttempt.1 ha
    refine le_trans ?_ hepoch
    split
    · rw [(hf b).2.2.2.2]
      exact h.epochs b hb
    · exact h.epochs b hb
  current a ha := by
    rw [hleased.attempt_none hstate]
    obtain ⟨b, hb, rfl⟩ := mem_setAttempt.1 ha
    split
    · simp [hout]
    · next hne => simpa using mt (h.current b hb).1 hne
  held i hi := by
    rw [hleased.attempt_none hstate] at hi
    cases hi
  budget := hbudget

theorem Ok.of_sound (hj : v.job = some j) (h : v.Sound j) : v.Ok where
  empty hnone := by simp [hj] at hnone
  sound j' hj' := by
    obtain rfl : j = j' := Option.some.inj (hj.symm.trans hj')
    exact h

end JobView

section Keeps

variable (clock : Clock) (now : Time)

theorem JobRow.claimed_keeps (owner attempt : Uuid) (lease : Option ℤ) :
    JobRow.Keeps (JobRow.claimed clock owner attempt lease) := fun _ => ⟨rfl, rfl, rfl⟩

theorem JobRow.renewed_keeps (lease : Option ℤ) : JobRow.Keeps (JobRow.renewed clock lease) :=
  fun _ => ⟨rfl, rfl, rfl⟩

theorem JobRow.succeeded_keeps (attempt : Option Uuid) (sha : Option String) :
    JobRow.Keeps (JobRow.succeeded clock attempt sha) := fun _ => ⟨rfl, rfl, rfl⟩

theorem JobRow.terminated_keeps (state : JobState) (error : Option String) (immediate : Bool) :
    JobRow.Keeps (JobRow.terminated clock state error immediate) := fun _ => ⟨rfl, rfl, rfl⟩

theorem JobRow.woken_keeps (state : JobState) : JobRow.Keeps (JobRow.woken state now) :=
  fun _ => ⟨rfl, rfl, rfl⟩

theorem JobRow.exhausted_keeps : JobRow.Keeps (JobRow.exhausted now) := fun _ => ⟨rfl, rfl, rfl⟩

theorem JobRow.cancelled_keeps : JobRow.Keeps (JobRow.cancelled now) := fun _ => ⟨rfl, rfl, rfl⟩

theorem AttemptRow.succeed_keeps (sha : Option String) :
    AttemptRow.Keeps (succeed sha now) := fun _ => ⟨rfl, rfl, rfl, rfl, rfl⟩

theorem AttemptRow.terminate_keeps (outcome : AttemptOutcome) (error : Option String) :
    AttemptRow.Keeps (terminate outcome error now) := fun _ => ⟨rfl, rfl, rfl, rfl, rfl⟩

theorem AttemptRow.cancel_keeps : AttemptRow.Keeps (cancel now) :=
  fun _ => ⟨rfl, rfl, rfl, rfl, rfl⟩

theorem AttemptRow.confirmExit_keeps : AttemptRow.Keeps (confirmExit now) :=
  fun _ => ⟨rfl, rfl, rfl, rfl, rfl⟩

theorem RunRow.die_keeps : RunRow.Keeps RunRow.die := fun _ => ⟨rfl, rfl, rfl, rfl, rfl, rfl, rfl⟩

theorem RunRow.state_keeps (state : RunState) : RunRow.Keeps fun r => { r with state } :=
  fun _ => ⟨rfl, rfl, rfl, rfl, rfl, rfl, rfl⟩

end Keeps

namespace JobView

variable {v v' : JobView} {j : JobRow}

@[simp] theorem killed_job (state : JobState) : (v.killed state).job = v.job := by
  unfold killed
  split <;> rfl

@[simp] theorem killed_attempts (state : JobState) : (v.killed state).attempts = v.attempts := by
  unfold killed
  split <;> rfl

@[simp] theorem killed_requests (state : JobState) : (v.killed state).requests = v.requests := by
  unfold killed
  split <;> rfl

@[simp] theorem killed_delphi (state : JobState) : (v.killed state).delphi = v.delphi := by
  unfold killed
  split <;> rfl

theorem killed_run (state : JobState) :
    (v.killed state).run = if state = .dead then v.run.map RunRow.die else v.run := by
  unfold killed
  split <;> rfl

/-- What a view says of its job does not depend on the requests or the logical job. -/
theorem Sound.of_eq (h : v.Sound j) (hrun : v'.run = v.run) (hattempts : v'.attempts = v.attempts) :
    v'.Sound j := by
  obtain ⟨hleased, hr, hcount, hepochs, hcurrent, hheld, hbudget⟩ := h
  refine ⟨hleased, hrun ▸ hr, ?_, ?_, ?_, ?_, hbudget⟩ <;> rw [hattempts] <;> assumption

/-- The same job under another row that differs in nothing the view is sound about. -/
theorem Sound.setJob {f : JobRow → JobRow} (h : v.Sound j) (hf : JobRow.Keeps f)
    (hstate : (f j).state = j.state ∧ (f j).outputSha256 = j.outputSha256)
    (hleased : (f j).leased) (hheld : (f j).attemptId = j.attemptId ∧ (f j).ownerId = j.ownerId)
    (hcount : (f j).attemptCount = j.attemptCount ∧ (f j).leaseEpoch = j.leaseEpoch)
    (hbudget : j.state.waiting → (f j).spent = j.spent ∧ (f j).maxAttempts = j.maxAttempts) :
    (v.setJob f).Sound (f j) where
  leased := hleased
  run := by
    rw [(hf j).1, (hf j).2.2, hstate.1, hstate.2]
    exact h.run
  count := hcount.1.trans h.count
  epochs := by
    rw [hcount.2]
    exact h.epochs
  current := by
    rw [hheld.1]
    exact h.current
  held := by
    rw [hheld.1, hheld.2, hcount.2]
    exact h.held
  budget hw := by
    rw [hstate.1] at hw
    rw [(hbudget hw).1, (hbudget hw).2]
    exact h.budget hw

end JobView

namespace Move

variable {v v' : JobView}

theorem ok (hv : v.Ok) (h : Move v v') : v'.Ok := by
  cases h with
  | @claim j hj hwaiting hspent hfree clock owner attempt lease hlease hfresh now started =>
    have hs := hv.sound j hj
    have hnone := hs.leased.attempt_none (JobState.waiting_ne_running hwaiting)
    obtain ⟨r, hr, hkey, hstate, -⟩ := hs.run
    refine .of_sound (j := j.claimed clock owner attempt lease) ?_ ⟨?_, ?_, ?_, ?_, ?_, ?_, ?_⟩
    · simp [JobView.addAttempt, JobView.setState, hj]
    · simp [JobRow.leased, JobRow.claimed, hlease]
    · refine ⟨r, hr, hkey, hstate.trans ?_, by rintro ⟨⟩⟩
      cases hjs : j.state <;> simp_all [JobState.waiting, JobState.runState, JobRow.claimed]
    · simp [JobRow.claimed, JobView.addAttempt, JobView.setState, hs.count]
    · intro a ha
      show a.leaseEpoch ≤ j.leaseEpoch + 1
      rcases mem_append.1 ha with ha | ha
      · exact (hs.epochs a ha).trans (by omega)
      · rw [mem_singleton.1 ha]
        exact le_refl _
    · intro a ha
      show a.outcome = .running ↔ some a.attemptId = some attempt
      rcases mem_append.1 ha with ha | ha
      · have hne : a.outcome ≠ .running := by
          intro hrun
          simpa [hnone] using (hs.current a ha).1 hrun
        simp [hne, hfresh a ha]
      · rw [mem_singleton.1 ha]
        simp [opened]
    · intro id hid
      obtain rfl : attempt = id := Option.some.inj hid
      exact ⟨_, mem_append_right _ (mem_singleton_self _), rfl, rfl, rfl⟩
    · intro hw
      cases hw
  | @renew j hj hrunning clock lease hlease =>
    have hs := hv.sound j hj
    refine .of_sound (j := j.renewed clock lease) (by simp [JobView.setJob, hj])
      (hs.setJob (JobRow.renewed_keeps clock lease) ⟨rfl, rfl⟩ ?_ ⟨rfl, rfl⟩ ⟨rfl, rfl⟩
        fun _ => ⟨rfl, rfl⟩)
    rcases hs.leased with ⟨h1, h2, h3, -⟩ | ⟨h1, -⟩
    · exact .inl ⟨h1, h2, h3, by simpa [JobRow.renewed] using hlease⟩
    · exact absurd hrunning h1
  | @succeed j hj hrunning hexit clock sha ended now f hf hfstate =>
    have hs := hv.sound j hj
    obtain ⟨r, hr, hkey, -, -⟩ := hs.run
    refine .of_sound (j := j.succeeded clock j.attemptId sha)
      (by simp [JobView.setRun, JobView.setState, JobView.setAttempt, hj]) ?_
    have hsound := hs.ended (succeed_keeps ended sha)
      (fun _ => by simp [AttemptRow.succeed]) (j.succeeded clock j.attemptId sha) (f r)
      (((v.setAttempt j.attemptId (AttemptRow.succeed sha ended)).setState now
        (JobRow.succeeded clock j.attemptId sha)).setRun f).delphi
      (.inr ⟨by simp [JobRow.succeeded], rfl, rfl, rfl⟩) (by simp [JobRow.succeeded])
      ⟨?_, (hfstate r).1, fun _ => (hfstate r).2⟩ rfl (le_refl _) (by rintro ⟨⟩)
    · exact hsound.of_eq (by simp [JobView.setRun, JobView.setState, JobView.setAttempt, hr]) rfl
    · rw [(hf r).1, (hf r).2.1]
      exact hkey
  | digest | record =>
    refine ⟨fun hnone => ?_, fun j hj => (hv.sound j hj).of_eq rfl rfl⟩
    rw [hv.empty hnone]
    rfl
  | @terminate j hj hrunning state hstate hexit clock outcome houtcome error immediate ended now =>
    have hs := hv.sound j hj
    obtain ⟨r, hr, hkey, hpending, -⟩ := hs.run
    have hnr : state ≠ .running := by
      rcases hstate with ⟨rfl, -⟩ | rfl | rfl <;> decide
    refine .of_sound (j := j.terminated clock state error immediate)
      (by simp [JobView.setState, JobView.setAttempt, hj]) ?_
    have hsound := hs.ended (terminate_keeps ended outcome error) (fun _ => houtcome)
      (j.terminated clock state error immediate) (if state = .dead then r.die else r)
      ((v.setAttempt j.attemptId (AttemptRow.terminate outcome error ended)).setState now
        (JobRow.terminated clock state error immediate)).delphi
      (.inr ⟨hnr, rfl, rfl, rfl⟩) hnr ⟨?_, ?_, ?_⟩ rfl ?_ ?_
    · refine hsound.of_eq ?_ (by simp [JobView.setState])
      simp only [JobView.killed_run, JobView.setState, JobView.setAttempt, hr]
      split <;> rfl
    · split <;> exact hkey
    · rw [hrunning] at hpending
      rcases hstate with ⟨rfl, -⟩ | rfl | rfl
      · exact hpending
      · exact hpending
      · rfl
    · rintro rfl
      rcases hstate with ⟨h, -⟩ | h | h <;> cases h
    · show j.leaseEpoch ≤ j.leaseEpoch + 1
      omega
    · intro hw
      rcases hstate with ⟨rfl, hlt⟩ | rfl | rfl
      · simpa [JobRow.spent, JobRow.terminated] using hlt
      · cases hw
      · cases hw
  | @unpark j hj hparked =>
    have hs := hv.sound j hj
    refine .of_sound (j := j.unpark) (by simp [JobView.setJob, hj])
      (hs.setJob (fun _ => ⟨rfl, rfl, rfl⟩) ⟨rfl, rfl⟩ hs.leased ⟨rfl, rfl⟩ ⟨rfl, rfl⟩ ?_)
    intro hw
    rw [hparked] at hw
    cases hw
  | @postpone j hj hparked eligibleAt =>
    have hs := hv.sound j hj
    exact .of_sound (j := { j with eligibleAt }) (by simp [JobView.setJob, hj])
      (hs.setJob (f := fun j => { j with eligibleAt }) (fun _ => ⟨rfl, rfl, rfl⟩) ⟨rfl, rfl⟩
        hs.leased ⟨rfl, rfl⟩ ⟨rfl, rfl⟩ fun _ => ⟨rfl, rfl⟩)
  | confirm id now =>
    refine ⟨fun hnone => ?_, fun j hj =>
      (hv.sound j hj).setAttempt (confirmExit_keeps now) fun _ => rfl⟩
    rw [hv.empty hnone]
    rfl
  | @wake j hj hparked state hstate hexit updated now =>
    have hs := hv.sound j hj
    obtain ⟨r, hr, hkey, hpending, -⟩ := hs.run
    have hnr : state ≠ .running := by
      rcases hstate with ⟨rfl, -⟩ | rfl <;> decide
    have hleased : (j.woken state updated).leased := by
      rcases hs.leased with ⟨h, -⟩ | ⟨-, h⟩
      · rw [hparked] at h
        cases h
      · exact .inr ⟨hnr, h⟩
    refine .of_sound (j := j.woken state updated) (by simp [JobView.setState, hj])
      ⟨hleased, ⟨if state = .dead then r.die else r, ?_, ?_, ?_, ?_⟩, ?_, ?_, ?_, ?_, ?_⟩
    · simp only [JobView.killed_run, JobView.setState, hr]
      split <;> rfl
    · split <;> exact hkey
    · rw [hparked] at hpending
      rcases hstate with ⟨rfl, -⟩ | rfl
      · exact hpending
      · rfl
    · rintro rfl
      rcases hstate with ⟨h, -⟩ | h <;> cases h
    · simpa [JobView.setState, JobRow.woken] using hs.count
    · simpa [JobView.setState, JobRow.woken] using hs.epochs
    · simpa [JobView.setState, JobRow.woken] using hs.current
    · simpa [JobView.setState, JobRow.woken] using hs.held
    · intro hw
      rcases hstate with ⟨rfl, hlt⟩ | rfl
      · exact hlt
      · cases hw
  | @cancel j hj hterminal ended updated now =>
    have hs := hv.sound j hj
    obtain ⟨r, hr, hkey, -, -⟩ := hs.run
    refine .of_sound (j := j.cancelled updated)
      (by simp [JobView.setRun, JobView.setState, JobView.setAttempt, hj]) ?_
    have hsound := hs.ended (AttemptRow.cancel_keeps ended) (fun _ => by simp [AttemptRow.cancel])
      (j.cancelled updated) { r with state := .cancelled }
      ((v.setAttempt j.attemptId (AttemptRow.cancel ended)).setState now
        (JobRow.cancelled updated)).delphi
      (.inr ⟨by simp [JobRow.cancelled], rfl, rfl, rfl⟩) (by simp [JobRow.cancelled])
      ⟨hkey, rfl, by rintro ⟨⟩⟩ rfl ?_ (by rintro ⟨⟩)
    · exact hsound.of_eq (by simp [JobView.setRun, JobView.setState, JobView.setAttempt, hr]) rfl
    · show j.leaseEpoch ≤ j.leaseEpoch + 1
      omega
  | @intent j hj hrunning r hclosed =>
    exact .of_sound hj ((hv.sound j hj).of_eq rfl rfl)

end Move

/-! ## What a job remembers -/

/-- A later row of a job. -/
structure JobRow.Follows (j j' : JobRow) : Prop where
  key : (j'.env, j'.jobId) = (j.env, j.jobId)
  runId : j'.runId = j.runId
  stage : j'.stage = j.stage
  priority : j'.priority = j.priority
  epoch : j.leaseEpoch ≤ j'.leaseEpoch
  terminal : j.state.terminal → j' = j

theorem JobRow.Follows.refl (j : JobRow) : j.Follows j :=
  ⟨rfl, rfl, rfl, rfl, le_refl _, fun _ => rfl⟩

theorem JobRow.Follows.trans {j j' j'' : JobRow} (h : j.Follows j') (h' : j'.Follows j'') :
    j.Follows j'' where
  key := h'.key.trans h.key
  runId := h'.runId.trans h.runId
  stage := h'.stage.trans h.stage
  priority := h'.priority.trans h.priority
  epoch := h.epoch.trans h'.epoch
  terminal ht := by
    obtain rfl := h.terminal ht
    exact h'.terminal ht

/-- The later rows of an attempt. -/
def AttemptRow.Follows (a a' : AttemptRow) : Prop :=
  a'.env = a.env ∧ a'.attemptId = a.attemptId ∧ a'.jobId = a.jobId ∧ a'.ownerId = a.ownerId ∧
    a'.leaseEpoch = a.leaseEpoch

/-- The later views of a job keep its row and its attempts. -/
structure JobView.Follows (v v' : JobView) : Prop where
  job : ∀ j, v.job = some j → ∃ j', v'.job = some j' ∧ j.Follows j'
  attempts : ∀ a ∈ v.attempts, ∃ a' ∈ v'.attempts, a.Follows a'

namespace JobView.Follows

variable {v v' v'' : JobView} {j j' : JobRow}

theorem refl (v : JobView) : v.Follows v where
  job j hj := ⟨j, hj, .refl j⟩
  attempts a ha := ⟨a, ha, rfl, rfl, rfl, rfl, rfl⟩

theorem trans (h : v.Follows v') (h' : v'.Follows v'') : v.Follows v'' where
  job j hj := by
    obtain ⟨j', hj', hf⟩ := h.job j hj
    obtain ⟨j'', hj'', hf'⟩ := h'.job j' hj'
    exact ⟨j'', hj'', hf.trans hf'⟩
  attempts a ha := by
    obtain ⟨a', ha', h₁, h₂, h₃, h₄, h₅⟩ := h.attempts a ha
    obtain ⟨a'', ha'', g₁, g₂, g₃, g₄, g₅⟩ := h'.attempts a' ha'
    exact ⟨a'', ha'', g₁.trans h₁, g₂.trans h₂, g₃.trans h₃, g₄.trans h₄, g₅.trans h₅⟩

private theorem of_job (j' : JobRow) (hj : v.job = some j) (hj' : v'.job = some j')
    (hf : j.Follows j')
    (hattempts : ∀ a ∈ v.attempts, ∃ a' ∈ v'.attempts, a.Follows a') : v.Follows v' where
  job i hi := by
    obtain rfl : j = i := Option.some.inj (hj.symm.trans hi)
    exact ⟨j', hj', hf⟩
  attempts := hattempts

private theorem of_eq (hjob : v'.job = v.job)
    (hattempts : ∀ a ∈ v.attempts, ∃ a' ∈ v'.attempts, a.Follows a') : v.Follows v' where
  job i hi := ⟨i, hjob.trans hi, .refl i⟩
  attempts := hattempts

private theorem same_attempts (h : v'.attempts = v.attempts) :
    ∀ a ∈ v.attempts, ∃ a' ∈ v'.attempts, a.Follows a' :=
  fun a ha => ⟨a, h ▸ ha, rfl, rfl, rfl, rfl, rfl⟩

private theorem set_attempts {id : Option Uuid}
    (hf : AttemptRow.Keeps f) (h : v'.attempts = (v.setAttempt id f).attempts) :
    ∀ a ∈ v.attempts, ∃ a' ∈ v'.attempts, a.Follows a' := by
  intro a ha
  refine ⟨_, h ▸ mem_setAttempt.2 ⟨a, ha, rfl⟩, ?_⟩
  split
  · exact hf a
  · exact ⟨rfl, rfl, rfl, rfl, rfl⟩

end JobView.Follows

open JobView.Follows in
theorem Move.follows {v v' : JobView} (h : Move v v') : v.Follows v' := by
  cases h with
  | @claim j hj hwaiting hspent hfree clock owner attempt lease hlease hfresh now started =>
    refine of_job (j.claimed clock owner attempt lease) hj ?_
      ⟨rfl, rfl, rfl, rfl, ?_, fun ht => ?_⟩ fun a ha => ?_
    · simp [JobView.addAttempt, JobView.setState, hj]
    · show j.leaseEpoch ≤ j.leaseEpoch + 1
      omega
    · rw [JobState.waiting_not_terminal hwaiting] at ht
      cases ht
    · exact ⟨a, mem_append_left _ ha, rfl, rfl, rfl, rfl, rfl⟩
  | @renew j hj hrunning clock lease hlease =>
    refine of_job (j.renewed clock lease) hj (by simp [JobView.setJob, hj])
      ⟨rfl, rfl, rfl, rfl, le_refl _, fun ht => ?_⟩ (same_attempts rfl)
    rw [hrunning] at ht
    cases ht
  | @succeed j hj hrunning hexit clock sha ended now f hf hfstate =>
    refine of_job (j.succeeded clock j.attemptId sha) hj ?_
      ⟨rfl, rfl, rfl, rfl, le_refl _, fun ht => ?_⟩
      (set_attempts (succeed_keeps ended sha) rfl)
    · simp [JobView.setRun, JobView.setState, JobView.setAttempt, hj]
    · rw [hrunning] at ht
      cases ht
  | digest | intent | record => exact of_eq rfl (same_attempts rfl)
  | @terminate j hj hrunning state hstate hexit clock outcome houtcome error immediate ended now =>
    refine of_job (j.terminated clock state error immediate) hj ?_
      ⟨rfl, rfl, rfl, rfl, ?_, fun ht => ?_⟩
      (set_attempts (terminate_keeps ended outcome error)
        (show _ = (v.setAttempt j.attemptId _).attempts by simp [JobView.setState]))
    · simp [JobView.setState, JobView.setAttempt, hj]
    · show j.leaseEpoch ≤ j.leaseEpoch + 1
      omega
    · rw [hrunning] at ht
      cases ht
  | @unpark j hj hparked =>
    refine of_job (j.unpark) hj (by simp [JobView.setJob, hj])
      ⟨rfl, rfl, rfl, rfl, le_refl _, fun ht => ?_⟩ (same_attempts rfl)
    rw [hparked] at ht
    cases ht
  | @postpone j hj hparked eligibleAt =>
    refine of_job { j with eligibleAt } hj (by simp [JobView.setJob, hj])
      ⟨rfl, rfl, rfl, rfl, le_refl _, fun ht => ?_⟩ (same_attempts rfl)
    rw [hparked] at ht
    cases ht
  | confirm id now => exact of_eq rfl (set_attempts (confirmExit_keeps now) rfl)
  | @wake j hj hparked state hstate hexit updated now =>
    refine of_job (j.woken state updated) hj (by simp [JobView.setState, hj])
      ⟨rfl, rfl, rfl, rfl, le_refl _, fun ht => ?_⟩ (same_attempts (by simp [JobView.setState]))
    rw [hparked] at ht
    cases ht
  | @cancel j hj hterminal ended updated now =>
    refine of_job (j.cancelled updated) hj ?_ ⟨rfl, rfl, rfl, rfl, ?_, fun ht => ?_⟩
      (set_attempts (cancel_keeps ended) rfl)
    · simp [JobView.setRun, JobView.setState, JobView.setAttempt, hj]
    · show j.leaseEpoch ≤ j.leaseEpoch + 1
      omega
    · rw [hterminal] at ht
      cases ht

/-- No move makes a job. -/
theorem Move.job_none {v v' : JobView} (h : Move v v') (hnone : v.job = none) :
    v'.job = none := by
  have hno : ∀ j, v.job ≠ some j := by simp [hnone]
  cases h with
  | digest | confirm | record => exact hnone
  | _ hj => exact absurd hj (hno _)

/-! ## Many jobs -/

/-- A job as it is admitted. -/
structure JobRow.Admitted (j : JobRow) : Prop where
  leased : j.leased
  state : j.state = .queued
  attempts : j.attemptCount = 0 ∧ j.parkedAttemptCount = 0
  budget : 1 ≤ j.maxAttempts

/-- One job moves, or a job with a run of its own is admitted, in one of the stages of the schema. -/
inductive Jobs.Step (stages : Set Stage) : (JobKey → JobView) → (JobKey → JobView) → Prop
  | enter {views : JobKey → JobView} {k : JobKey} {j : JobRow} {r : RunRow}
      {d : Option DelphiJobRow} (hnone : (views k).job = none) (hj : j.Admitted)
      (hstage : j.stage ∈ stages) (hkey : (j.env, j.jobId) = k)
      (hrun : (r.env, r.runId) = (j.env, j.runId) ∧ r.state = .pending)
      (hfresh : ∀ k' j', (views k').job = some j' → (j'.env, j'.runId) ≠ (j.env, j.runId))
      (hdelphi : j.stage ≠ .noop → ∃ d', d = some d' ∧ d'.status = .queued)
      (hroot : ∀ d', d = some d' → d'.parentJobId = none) :
      Jobs.Step stages views (update views k { job := some j, run := some r, delphi := d })
  | move {views : JobKey → JobView} {k : JobKey} {v' : JobView} (h : Move (views k) v') :
      Jobs.Step stages views (update views k v')

/-- Every job is sound and in one of the stages, and no two share a run. -/
structure Jobs.Good (stages : Set Stage) (views : JobKey → JobView) : Prop where
  ok : ∀ k, (views k).Ok
  stages : ∀ k j, (views k).job = some j → j.stage ∈ stages
  distinct : RunsDistinct views

/-- A job that keeps its run shares it with no other. -/
theorem RunsDistinct.update {views : JobKey → JobView} {k : JobKey} {v' : JobView}
    (h : RunsDistinct views)
    (hv : ∀ j', v'.job = some j' → ∃ j, (views k).job = some j ∧
      (j.env, j.runId) = (j'.env, j'.runId)) :
    RunsDistinct (Function.update views k v') := by
  have hback : ∀ k' j', (Function.update views k v' k').job = some j' →
      ∃ j, (views k').job = some j ∧ (j.env, j.runId) = (j'.env, j'.runId) := by
    intro k' j' hj'
    by_cases hk : k' = k
    · subst hk
      rw [update_self] at hj'
      exact hv j' hj'
    · rw [update_of_ne hk] at hj'
      exact ⟨j', hj', rfl⟩
  intro k₁ k₂ j₁ j₂ h₁ h₂ heq
  obtain ⟨i₁, hi₁, he₁⟩ := hback k₁ j₁ h₁
  obtain ⟨i₂, hi₂, he₂⟩ := hback k₂ j₂ h₂
  exact h _ _ _ _ hi₁ hi₂ (by rw [he₁, he₂, heq])

namespace Jobs

variable {stages : Set Stage} {views views' : JobKey → JobView} {k : JobKey}

theorem admitted_sound {j : JobRow} {r : RunRow} {d : Option DelphiJobRow} (hj : j.Admitted)
    (hrun : (r.env, r.runId) = (j.env, j.runId) ∧ r.state = .pending) :
    JobView.Sound { job := some j, run := some r, delphi := d } j where
  leased := hj.leased
  run := ⟨r, rfl, hrun.1, by rw [hrun.2, hj.state]; rfl, by simp [hj.state]⟩
  count := hj.attempts.1
  epochs := by simp
  current := by simp
  held id hid := by
    rw [hj.leased.attempt_none (by simp [hj.state])] at hid
    cases hid
  budget _ := by
    have hbudget := hj.budget
    rw [JobRow.spent, hj.attempts.1, hj.attempts.2]
    omega

theorem Step.follows (hg : Good stages views) (h : Step stages views views') (k : JobKey) :
    (views k).Follows (views' k) := by
  cases h with
  | @enter k' j r d hnone hj hstage hkey hrun hfresh hdelphi hroot =>
    by_cases hk : k = k'
    · subst hk
      rw [(hg.ok k).empty hnone]
      exact ⟨fun _ h => (nomatch h), by simp⟩
    · rw [update_of_ne hk]
      exact .refl _
  | @move k' v' hmove =>
    by_cases hk : k = k'
    · subst hk
      rw [update_self]
      exact hmove.follows
    · rw [update_of_ne hk]
      exact .refl _

theorem Step.good (hg : Good stages views) (h : Step stages views views') : Good stages views' := by
  cases h with
  | @enter k j r d hnone hj hstage hkey hrun hfresh hdelphi hroot =>
    refine ⟨fun k' => ?_, fun k' j' hj' => ?_, fun k₁ k₂ j₁ j₂ h₁ h₂ heq => ?_⟩
    · by_cases hk : k' = k
      · subst hk
        rw [update_self]
        exact .of_sound (j := j) rfl (admitted_sound hj hrun)
      · rw [update_of_ne hk]
        exact hg.ok k'
    · by_cases hk : k' = k
      · subst hk
        rw [update_self] at hj'
        obtain rfl : j = j' := Option.some.inj hj'
        exact hstage
      · rw [update_of_ne hk] at hj'
        exact hg.stages k' j' hj'
    · by_cases hk₁ : k₁ = k <;> by_cases hk₂ : k₂ = k
      · rw [hk₁, hk₂]
      · rw [hk₁, update_self] at h₁
        rw [update_of_ne hk₂] at h₂
        obtain rfl : j = j₁ := Option.some.inj h₁
        exact absurd heq.symm (hfresh k₂ j₂ h₂)
      · rw [hk₂, update_self] at h₂
        rw [update_of_ne hk₁] at h₁
        obtain rfl : j = j₂ := Option.some.inj h₂
        exact absurd heq (hfresh k₁ j₁ h₁)
      · rw [update_of_ne hk₁] at h₁
        rw [update_of_ne hk₂] at h₂
        exact hg.distinct _ _ _ _ h₁ h₂ heq
  | @move k v' hmove =>
    have hback : ∀ j', v'.job = some j' → ∃ i, (views k).job = some i ∧ i.Follows j' := by
      intro j' hj'
      cases hi : (views k).job with
      | none =>
        rw [hmove.job_none hi] at hj'
        cases hj'
      | some i =>
        obtain ⟨j₀, hj₀, hf⟩ := hmove.follows.job i hi
        obtain rfl : j₀ = j' := Option.some.inj (hj₀.symm.trans hj')
        exact ⟨i, rfl, hf⟩
    refine ⟨fun k' => ?_, fun k' j' hj' => ?_, hg.distinct.update fun j' hj' => ?_⟩
    · by_cases hk : k' = k
      · subst hk
        rw [update_self]
        exact hmove.ok (hg.ok k')
      · rw [update_of_ne hk]
        exact hg.ok k'
    · by_cases hk : k' = k
      · subst hk
        rw [update_self] at hj'
        obtain ⟨i, hi, hf⟩ := hback j' hj'
        rw [hf.stage]
        exact hg.stages k' i hi
      · rw [update_of_ne hk] at hj'
        exact hg.stages k' j' hj'
    · obtain ⟨i, hi, hf⟩ := hback j' hj'
      have henv : j'.env = i.env := congrArg Prod.fst hf.key
      exact ⟨i, hi, by rw [henv, hf.runId]⟩

end Jobs

end Polis.Queue
