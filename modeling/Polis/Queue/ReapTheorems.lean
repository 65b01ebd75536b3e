import Polis.Common.Paging
import Polis.Queue.FencingTheorems

/-!
# No job is stuck

What a claim takes, what `pq_due` lists and what `pq_reap_one` moves are three predicates. They fit: a
job that is neither held nor ended is claimed or reaped, the reaper moves what is listed, and a reader
that pages through `pq_reap` comes to each listed job once.

Reference: `server/postgres/migrations/000019_create_polis_queue.sql`.
-/

namespace Polis.Queue

open List Option JobRow

variable {db db' : Database} {clock : Clock} {k : JobKey} {j j' : JobRow} {env : String}
  {job : Uuid} {now : Time} {stages : Set Stage}
variable {state : JobState} {due : List Uuid}

/-! ## The statement -/

/-- The job is held under a lease that has not expired. -/
def JobRow.Leased (j : JobRow) (now : Time) : Prop :=
  j.state = .running ∧ j.lockedUntil.any (now < ·)

/-- The reading at which `pq_reap_one` compares the times of the job. -/
def JobRow.reapTime (j : JobRow) (clock : Clock) : Time :=
  if j.state = .running then clock.read 0 else clock.read 1

/-- The job has ended, or a claim of its priority can take it once its time has come. -/
def JobRow.Resumed (j : JobRow) : Prop :=
  j.state.terminal ∨ ∀ now, j.eligibleAt ≤ now → j.Claimable j.env j.priority now

/-- A `pq_reap_one` moves its job if the job is due when it is read, and no other job. -/
structure Reaped (db : Database) (clock : Clock) (k : JobKey) (r : Option Reply)
    (db' : Database) : Prop where
  due : r.isSome ↔ ∃ j, db.jobs.find k = some j ∧ j.Due (j.reapTime clock)
  kept : r = none → db' = db
  others : ∀ k' ≠ k, db'.view k' = db.view k'
  moved : ∀ reply, r = some reply → ∃ j j', db.jobs.find k = some j ∧
    db'.jobs.find k = some j' ∧ reply.job = some j' ∧ j' ≠ j ∧ j'.Resumed

/-- The ids of the due jobs of an environment, in order. -/
def dueIds (db : Database) (env : String) (now : Time) : List Uuid :=
  ((db.jobs.rows.filter fun j => j.env = env ∧ j.Due now).map (·.jobId)).insertionSort (· ≤ ·)

/-- The jobs that the transitions of a page are about. -/
def ReapPage.visited (page : ReapPage) : List Uuid :=
  page.transitions.filterMap fun r => r.job.map (·.jobId)

/-- A reader of the pages of `pq_reap`: its cursor, whether a page was the last, what it has visited
and in how many pages. -/
structure Pager where
  db : Database
  after : Option Uuid := none
  ended : Bool := false
  visited : List Uuid := []
  pages : ℕ := 0

/-- The due jobs that are still to come are those of the list. -/
def Pager.Unchanged (p : Pager) (env : String) (due : List Uuid) (now : Time) : Prop :=
  ∀ id, (∀ x ∈ p.after, x < id) → (id ∈ dueIds p.db env now ↔ id ∈ due)

/-- The reader takes its next page, or another call comes between. -/
inductive Pager.Step (env : String) (limit : ℤ) (due : List Uuid) : Pager → Pager → Prop
  | page {p : Pager} {page : ReapPage} {db' : Database} (clock : Clock) (hclock : clock.Monotone)
      (hopen : p.ended = false) (hdue : p.Unchanged env due clock.statement)
      (h : pqReap p.db clock env p.after (some limit) = .ok (page, db')) :
      Pager.Step env limit due p
        { db := db'
          after := page.nextAfterJobId
          ended := page.nextAfterJobId.isNone
          visited := p.visited ++ page.visited
          pages := p.pages + 1 }
  | other {p : Pager} {e : Event} {db' : Database} (h : Queue.Step p.db e db') :
      Pager.Step env limit due p { p with db := db' }

/-- What a reader of the pages has done: it has visited the first of the due jobs, each once, and all of
them when it has ended; it ends after a bounded number of pages, and a next page is always there. -/
structure Pager.Once (p : Pager) (env : String) (limit : ℤ) (due : List Uuid) : Prop where
  nodup : due.Nodup
  visited : p.visited <+: due
  complete : p.ended → p.visited = due
  bounded : p.pages * limit ≤ due.length + limit
  next : p.ended = false → ∀ clock : Clock, clock.Monotone →
    p.Unchanged env due clock.statement →
      ∃ page db', pqReap p.db clock env p.after (some limit) = .ok (page, db')

/-! ## Due or claimable -/

theorem JobRow.Due.mono {t t' : Time} (h : j.Due t) (ht : t ≤ t') : j.Due t' := by
  rcases h with ⟨hs, hl⟩ | ⟨hs, he⟩ | h
  · obtain ⟨l, hl', hle⟩ := (any_eq_true _ _).1 hl
    refine .inl ⟨hs, (any_eq_true _ _).2 ⟨l, hl', ?_⟩⟩
    rw [decide_eq_true_eq] at hle ⊢
    exact hle.trans ht
  · exact .inr (.inl ⟨hs, he.trans ht⟩)
  · exact .inr (.inr h)

/-- The states of a job by what becomes of them. -/
theorem JobState.kinds (s : JobState) :
    s.terminal = true ∨ s = .running ∨ s = .parked ∨ s.waiting = true := by
  cases s <;> simp [JobState.terminal, JobState.waiting]

/-- A job that nothing holds back is claimed by its state or reaped by it. -/
theorem claimable_xor_due (hleased : j.leased) (hterminal : j.state.terminal = false)
    (hlease : ¬ j.Leased now) (htime : j.eligibleAt ≤ now) :
    Xor (j.Claimable j.env j.priority now) (j.Due now) := by
  rcases j.state.kinds with h | hrunning | hparked | hwaiting
  · rw [hterminal] at h
    cases h
  · refine .inr ⟨.inl ⟨hrunning, ?_⟩, fun hc => ?_⟩
    · rcases hleased with ⟨-, -, -, hl⟩ | ⟨hne, -⟩
      · obtain ⟨l, hl⟩ := isSome_iff_exists.1 hl
        have hle : ¬ now < l := fun hlt => hlease ⟨hrunning, by simp [hl, hlt]⟩
        simpa [hl] using hle
      · exact absurd hrunning hne
    · exact JobState.waiting_ne_running hc.2.2.1 hrunning
  · refine .inr ⟨.inr (.inl ⟨hparked, htime⟩), fun hc => ?_⟩
    have hw := hc.2.2.1
    rw [hparked] at hw
    cases hw
  · by_cases hspent : j.spent < j.maxAttempts
    · refine .inl ⟨⟨rfl, rfl, hwaiting, htime, hspent⟩, ?_⟩
      rintro (⟨hs, -⟩ | ⟨hs, -⟩ | ⟨-, hle⟩)
      · exact JobState.waiting_ne_running hwaiting hs
      · rw [hs] at hwaiting
        cases hwaiting
      · omega
    · exact .inr ⟨.inr (.inr ⟨hwaiting, by omega⟩), fun hc => hspent hc.2.2.2.2⟩

/-! ## The writes go through -/

theorem updateJob_ok {f : JobRow → JobRow} (hf : JobRow.Keeps f)
    (hj : ∀ j, db.jobs.find k = some j → (f j).stage = j.stage ∧
      (f j).stageInstance = j.stageInstance ∧ Row.check (f j)) :
    ∃ db', db.updateJob k f = .ok db' := by
  obtain ⟨t, ht⟩ := Table.exists_update (t := db.jobs) (k := k) (f := f)
    (fun j => Prod.ext (hf j).1 (hf j).2.1) fun j hfind => by
      obtain ⟨hstage, hinstance, hcheck⟩ := hj j hfind
      refine ⟨?_, hcheck⟩
      simp only [Row.unique]
      rw [(hf j).1, (hf j).2.2, hstage, hinstance]
  exact ⟨_, write_eq_ok.2 ⟨t, ht, rfl⟩⟩

theorem updateAttempt_ok {kA : String × Uuid} {f : AttemptRow → AttemptRow}
    (hf : AttemptRow.Keeps f) : ∃ db', db.updateAttempt kA f = .ok db' := by
  obtain ⟨t, ht⟩ := Table.exists_update (t := db.attempts) (k := kA) (f := f)
    (fun a => Prod.ext (hf a).1 (hf a).2.1) fun a hfind => by
      have hcheck : 0 < a.leaseEpoch := Table.check_of_find hfind
      simp only [Row.unique, Row.check]
      rw [(hf a).1, (hf a).2.2.1, (hf a).2.2.2.2]
      exact ⟨rfl, hcheck⟩
  exact ⟨_, write_eq_ok.2 ⟨t, ht, rfl⟩⟩

theorem updateAttemptOf_ok {id : Option Uuid} {f : AttemptRow → AttemptRow}
    (hf : AttemptRow.Keeps f) : ∃ db', updateAttemptOf db env id f = .ok db' := by
  cases id with
  | none => exact ⟨db, rfl⟩
  | some id => exact updateAttempt_ok hf

theorem killRun_ok (db : Database) (j : JobRow) : ∃ db', killRun db j = .ok db' := by
  unfold killRun
  split
  · obtain ⟨t, ht⟩ := Table.exists_update (t := db.runs) (k := (j.env, j.runId)) (f := RunRow.die)
      (fun _ => rfl) fun r hfind => by
        have hcheck : Row.check r := Table.check_of_find (t := db.runs) hfind
        exact ⟨rfl, hcheck⟩
    exact ⟨_, write_eq_ok.2 ⟨t, ht, rfl⟩⟩
  · exact ⟨db, rfl⟩

/-- A noop has no logical job to keep in step. -/
theorem updateJobState_ok (now : Time) {f : JobRow → JobRow} (hf : JobRow.Keeps f)
    (hj : db.jobs.find k = some j) (hnoop : j.stage = .noop) (hstage : (f j).stage = j.stage)
    (hinstance : (f j).stageInstance = j.stageInstance) (hcheck : Row.check (f j)) :
    ∃ db', db.updateJobState k now f = .ok db' := by
  obtain ⟨db₁, h₁⟩ : ∃ db₁, db.updateJob k f = .ok db₁ := by
    refine updateJob_ok hf fun i hi => ?_
    obtain rfl : j = i := Option.some.inj (hj.symm.trans hi)
    exact ⟨hstage, hinstance, hcheck⟩
  have hfind : db₁.jobs.find k = some (f j) := by
    have hview := congrArg JobView.job (updateJob_effect hf h₁).view_self
    simpa [JobView.setJob, Database.view_job, hj] using hview
  refine ⟨db₁, bind_eq_ok.2 ⟨db₁, h₁, ?_⟩⟩
  rw [hfind]
  simp only [hstage, hnoop, if_true]

theorem terminated_check {error : Option String} {immediate : Bool}
    (hj : Row.check j) (hrunning : state ≠ .running) (hparked : state ≠ .parked) :
    Row.check (j.terminated clock state error immediate) := by
  obtain ⟨-, hcounted, h₁, h₂, h₃, h₄, h₅, hstages⟩ := hj
  refine ⟨.inr ⟨hrunning, rfl, rfl, rfl⟩, ?_, h₁, h₂, ?_, ?_, ?_, hstages⟩
  · simpa [counted, terminated, hparked] using hcounted
  · show 0 ≤ j.leaseEpoch + 1
    omega
  · show 0 ≤ j.version + 1
    omega
  · show 0 ≤ j.mgmtVersion + 1
    omega

theorem woken_check (hj : Row.check j) (hs : j.state ≠ .running) (hstate : state ≠ .running) :
    Row.check (j.woken state now) := by
  obtain ⟨hleased, hcounted, h₁, h₂, h₃, h₄, h₅, hstages⟩ := hj
  rcases hleased with ⟨hrunning, -⟩ | ⟨-, hleased⟩
  · exact absurd hrunning hs
  refine ⟨.inr ⟨hstate, hleased⟩, hcounted, h₁, h₂, h₃, ?_, ?_, hstages⟩
  · show 0 ≤ j.version + 1
    omega
  · show 0 ≤ j.mgmtVersion + 1
    omega

theorem pqTerminateAttempt_ok {outcome : AttemptOutcome}
    {error : Option String} {immediate : Bool} (hg : Jobs.Good stages db.view)
    (hj : (db.view j.key).job = some j) (hnoop : j.stage = .noop) (hrunning : state ≠ .running)
    (hparked : state ≠ .parked) :
    ∃ p, pqTerminateAttempt db clock j state outcome error immediate = .ok p := by
  obtain ⟨db₁, h₁⟩ : ∃ db₁, updateAttemptOf db j.env j.attemptId
      (AttemptRow.terminate outcome error (clock.read 0)) = .ok db₁ :=
    updateAttemptOf_ok (AttemptRow.terminate_keeps _ outcome error)
  have he := updateAttemptOf_effect (k := j.key) (AttemptRow.terminate_keeps _ outcome error)
    (hg.attempt_job hj) h₁
  have hj₁ : db₁.jobs.find j.key = some j := by
    have hview := congrArg JobView.job he.view_self
    exact hview.trans hj
  obtain ⟨db₂, h₂⟩ := updateJobState_ok (clock.read 4)
    (terminated_keeps clock state error immediate) hj₁ hnoop rfl rfl
    (terminated_check (Table.check_of_find hj₁) hrunning hparked)
  obtain ⟨db₃, h₃⟩ := killRun_ok db₂ (j.terminated clock state error immediate)
  exact ⟨_, bind_eq_ok.2 ⟨db₁, h₁, bind_eq_ok.2 ⟨db₂, h₂, bind_eq_ok.2 ⟨db₃, h₃, rfl⟩⟩⟩⟩

theorem wake_ok {updated : Time} (hj : (db.view j.key).job = some j)
    (hnoop : j.stage = .noop) (hs : j.state ≠ .running) (hstate : state ≠ .running) :
    ∃ p, reapJob db j now (woken state updated) = .ok p := by
  obtain ⟨db₁, h₁⟩ := updateJobState_ok now (woken_keeps updated state) hj hnoop
    rfl rfl (woken_check (Table.check_of_find hj) hs hstate)
  obtain ⟨db₂, h₂⟩ := killRun_ok db₁ (j.woken state updated)
  exact ⟨_, bind_eq_ok.2 ⟨db₁, h₁, bind_eq_ok.2 ⟨db₂, h₂, rfl⟩⟩⟩

/-! ## One job -/

theorem unlessSpent_ne {s t : JobState} (hs : s ≠ t) (ht : t ≠ .dead) : j.unlessSpent s ≠ t := by
  rcases unlessSpent_cases j s with ⟨h, -⟩ | h
  · rwa [h]
  · rw [h]
    exact ht.symm

/-- The reaper never fails. -/
theorem pqReapOne_ok (hg : Jobs.Good {.noop} db.view) (clock : Clock) (env : String)
    (job : Uuid) : ∃ p, pqReapOne db clock env job = .ok p := by
  unfold pqReapOne pqLock
  cases hj : db.jobs.find (env, job) with
  | none => exact ⟨_, rfl⟩
  | some j =>
    have hkey := key_eq hj
    have hnoop : j.stage = .noop := hg.stages _ j hj
    simp only
    split
    · obtain ⟨p, hp⟩ : ∃ p, pqTerminateAttempt db (clock.later 1) j (j.unlessSpent .retryWait)
          .expired (some "lease_expired") false = .ok p :=
        pqTerminateAttempt_ok hg hkey hnoop (unlessSpent_ne (by decide) (by decide))
          (unlessSpent_ne (by decide) (by decide))
      exact ⟨_, bind_eq_ok.2 ⟨p, hp, rfl⟩⟩
    · split
      · next hparked =>
        exact wake_ok hkey hnoop (by rw [hparked.1]; decide)
          (unlessSpent_ne (by decide) (by decide))
      · split
        · next hspent =>
          have hbudget := ((hg.ok _).sound j hj).budget hspent.1
          omega
        · exact ⟨_, rfl⟩

/-- The tests of `pq_reap_one` are those of `pq_due`. -/
theorem not_due_of_not {t₀ t₁ : Time} (ht : j.reapTime clock = if j.state = .running then t₀ else t₁)
    (hexpired : ¬(j.state = .running ∧ j.lockedUntil.any (· ≤ t₀)))
    (hparked : ¬(j.state = .parked ∧ j.eligibleAt ≤ t₁))
    (hspent : ¬(j.state.waiting ∧ j.maxAttempts ≤ j.spent)) : ¬ j.Due (j.reapTime clock) := by
  rw [ht]
  rintro (⟨hs, hl⟩ | ⟨hs, he⟩ | h)
  · rw [if_pos hs] at hl
    exact hexpired ⟨hs, hl⟩
  · rw [if_neg (by rw [hs]; decide)] at he
    exact hparked ⟨hs, he⟩
  · exact hspent h

/-- The reaper writes a later row to a due job, and to no other. -/
private theorem Reaped.of_effect {g : JobView → JobView} {reply : Reply} (he : Effect db db' k g)
    (hj : (db.view k).job = some j) (hj' : (g (db.view k)).job = some j')
    (hdue : j.Due (j.reapTime clock)) (hreply : reply.job = some j')
    (hversion : j'.version = j.version + 1) (hresumed : j'.Resumed) :
    Reaped db clock k (some reply) db' where
  due := ⟨fun _ => ⟨j, hj, hdue⟩, fun _ => rfl⟩
  kept h := nomatch h
  others _ hk' := he.view_of_ne hk'
  moved reply' hr := by
    cases hr
    refine ⟨j, j', hj, (congrArg JobView.job he.view_self).trans hj', hreply, ?_, hresumed⟩
    rintro rfl
    omega

theorem pqReapOne_reaped {r : Option Reply} (hg : Jobs.Good {.noop} db.view)
    (h : pqReapOne db clock env job = .ok (r, db')) : Reaped db clock (env, job) r db' := by
  rcases pqReapOne_spec h with ⟨rfl, rfl, hnot⟩ | ⟨j, hj, hcases⟩
  · refine ⟨⟨fun h => (nomatch h), fun ⟨j, hj, hdue⟩ => ?_⟩, fun _ => rfl, fun _ _ => rfl,
      fun _ h => (nomatch h)⟩
    obtain ⟨hexpired, hparked, hspent⟩ := hnot j hj
    exact absurd hdue (not_due_of_not rfl hexpired hparked hspent)
  have hkey := key_eq hj
  have hk : j.key = (env, job) := Database.key_of_view hj
  rcases hcases with ⟨hrunning, hlock, j', reply, rfl, -, hreply, h₁⟩ | ⟨hparked, htime, h₁⟩ |
      ⟨hwaiting, hspent, -⟩
  · obtain ⟨rfl, he⟩ := pqTerminateAttempt_effect hg hkey hrunning h₁
    rw [hk] at he
    refine .of_effect he hj (by simp [JobView.setState, JobView.setAttempt, hj])
      (.inl ⟨hrunning, ?_⟩) hreply rfl ?_
    · rwa [reapTime, if_pos hrunning]
    · rcases unlessSpent_cases j .retryWait with ⟨hs, hlt⟩ | hs
      · refine .inr fun now hnow => ⟨rfl, rfl, ?_, hnow, ?_⟩
        · simp [terminated, hs, JobState.waiting]
        · simpa [terminated, spent, hs] using hlt
      · left
        simp [terminated, hs, JobState.terminal]
  · obtain ⟨⟨reply, rfl, -, hreply⟩, he⟩ := reapJob_effect
      (woken_keeps (clock.read 2) (j.unlessSpent .queued)) hg hkey (by rw [hparked]; rfl) h₁
    rw [hk] at he
    refine .of_effect he hj (by simp [JobView.setState, hj]) (.inr (.inl ⟨hparked, ?_⟩)) hreply rfl ?_
    · rwa [reapTime, if_neg (by rw [hparked]; decide)]
    · rcases unlessSpent_cases j .queued with ⟨hs, hlt⟩ | hs
      · refine .inr fun now hnow => ⟨rfl, rfl, ?_, hnow, hlt⟩
        simp [woken, hs, JobState.waiting]
      · left
        simp [woken, hs, JobState.terminal]
  · have hbudget := ((hg.ok _).sound j hj).budget hwaiting
    omega

/-! ## One page -/

theorem mem_dueIds {id : Uuid} : id ∈ dueIds db env now ↔
    ∃ j, (db.view (env, id)).job = some j ∧ j.Due now := by
  rw [dueIds, mem_insertionSort, List.mem_map]
  constructor
  · rintro ⟨j, hj, rfl⟩
    obtain ⟨hmem, hj⟩ := mem_filter.1 hj
    obtain ⟨rfl, hdue⟩ := of_decide_eq_true hj
    exact ⟨j, Table.find_of_mem hmem, hdue⟩
  · rintro ⟨j, hj, hdue⟩
    obtain ⟨hmem, hkey⟩ := Table.find_eq_some.1 hj
    refine ⟨j, mem_filter.2 ⟨hmem, decide_eq_true ⟨?_, hdue⟩⟩, congrArg Prod.snd hkey⟩
    exact congrArg Prod.fst hkey

/-- The ids of jobs of one environment are distinct, so their order is strict. -/
theorem jobIds_sorted {p : JobRow → Bool} (hp : ∀ j, p j = true → j.env = env) :
    (((db.jobs.rows.filter p).map (·.jobId)).insertionSort (· ≤ ·)).Pairwise (· < ·) := by
  have hkeys : ((db.jobs.rows.filter p).map Row.key).Nodup :=
    db.jobs.keys_nodup.sublist (filter_sublist.map _)
  have hids : ((db.jobs.rows.filter p).map (·.jobId)).Nodup := by
    refine List.Nodup.of_map (fun id => (env, id)) ?_
    convert hkeys using 1
    rw [List.map_map]
    refine map_congr_left fun j hj => ?_
    show (env, j.jobId) = (j.env, j.jobId)
    rw [hp j (mem_filter.1 hj).2]
  have hnodup := (perm_insertionSort (· ≤ ·) _).nodup_iff.2 hids
  exact ((pairwise_insertionSort (· ≤ ·) _).and hnodup).imp fun h => lt_of_le_of_ne h.1 h.2

theorem dueIds_sorted (db : Database) (env : String) (now : Time) :
    (dueIds db env now).Pairwise (· < ·) :=
  jobIds_sorted fun _ h => (of_decide_eq_true h).1

/-- A page of `pq_due` holds the first of the due jobs beyond the cursor. -/
theorem pqDue_eq {after : Option Uuid} {limit : ℤ} (hlimit : 1 ≤ limit ∧ limit ≤ 100) :
    pqDue db clock env after (some limit) =
      (beyond (dueIds db env clock.statement) after).take limit.toNat := by
  have hn : dueLimit (some limit) = limit.toNat := by
    simp only [dueLimit, getD_some]
    omega
  rw [pqDue, jobPage, hn]
  congr 1
  refine List.Pairwise.eq_of_mem_iff (r := (· < ·))
    (jobIds_sorted fun _ h => (of_decide_eq_true h).1)
    (beyond_pairwise (dueIds_sorted _ _ _) after) fun id => ?_
  rw [mem_beyond, mem_dueIds, List.mem_insertionSort, List.mem_map]
  constructor
  · rintro ⟨j, hj, rfl⟩
    obtain ⟨hmem, hj⟩ := mem_filter.1 hj
    obtain ⟨rfl, hafter, hdue⟩ := of_decide_eq_true hj
    exact ⟨⟨j, Table.find_of_mem hmem, by simpa using hdue⟩, hafter⟩
  · rintro ⟨⟨j, hj, hdue⟩, hafter⟩
    obtain ⟨hmem, hkey⟩ := Table.find_eq_some.1 hj
    obtain ⟨rfl, rfl⟩ : j.env = env ∧ j.jobId = id := Prod.mk.inj hkey
    exact ⟨j, mem_filter.2 ⟨hmem, decide_eq_true ⟨rfl, hafter, by simpa using hdue⟩⟩, rfl⟩

theorem mem_dueIds_iff_listed : job ∈ dueIds db env now ↔
    ∃ clock after limit, clock.statement = now ∧ job ∈ pqDue db clock env after limit := by
  constructor
  · intro h
    -- The cursor just before the job makes it the first of the page.
    let after : Option Uuid := if job = 0 then none else some (job - 1)
    have hafter : ∀ id : Uuid, (∀ x ∈ after, x < id) ↔ job ≤ id := by
      intro id
      by_cases hzero : job = 0
      · simp [after, hzero]
      · have hpos : 0 < job := Nat.pos_of_ne_zero hzero
        simp only [after, if_neg hzero, mem_some_iff, forall_eq']
        exact ⟨Nat.le_of_pred_lt, (Nat.sub_lt hpos Nat.one_pos).trans_le⟩
    refine ⟨⟨now, fun _ => now⟩, after, some 1, rfl, ?_⟩
    rw [pqDue_eq (by omega)]
    have hmem : job ∈ beyond (dueIds db env now) after :=
      mem_beyond.2 ⟨h, (hafter job).2 (le_refl job)⟩
    have hsorted := beyond_pairwise (dueIds_sorted db env now) after
    cases hids : beyond (dueIds db env now) after with
    | nil =>
      rw [hids] at hmem
      cases hmem
    | cons id ids =>
      rw [hids] at hmem hsorted
      have hle : job ≤ id := (hafter id).1 (mem_beyond.1 (by rw [hids]; simp : id ∈ _)).2
      rcases mem_cons.1 hmem with rfl | hmem
      · simp
      · exact absurd ((pairwise_cons.1 hsorted).1 job hmem) (not_lt.2 hle)
  · rintro ⟨clock, after, limit, rfl, h⟩
    have hmem := mem_of_mem_take h
    rw [List.mem_insertionSort, List.mem_map] at hmem
    obtain ⟨j, hj, rfl⟩ := hmem
    obtain ⟨hmem, hj⟩ := mem_filter.1 hj
    obtain ⟨rfl, -, hdue⟩ := of_decide_eq_true hj
    exact mem_dueIds.2 ⟨j, Table.find_of_mem hmem, by simpa using hdue⟩

theorem JobRow.le_reapTime {t : Time} (hclock : ∀ i, t ≤ clock.read i) : t ≤ j.reapTime clock := by
  unfold reapTime
  split <;> exact hclock _

/-- Each of the listed jobs is moved. -/
theorem reapEach_due {ids : List Uuid} {t : Time} (hg : Jobs.Good {.noop} db.view)
    (hclock : ∀ i, t ≤ clock.read i) (hnodup : ids.Nodup)
    (hdue : ∀ id ∈ ids, ∃ j, (db.view (env, id)).job = some j ∧ j.Due t) :
    ∃ replies db', reapEach (pqReapOne · · env ·) db clock ids = .ok (replies, db') ∧
      (replies.filterMap fun r => r.job.map (·.jobId)) = ids := by
  induction ids generalizing db clock with
  | nil => exact ⟨[], db, rfl, rfl⟩
  | cons id ids ih =>
    obtain ⟨hfresh, hnodup⟩ := nodup_cons.1 hnodup
    obtain ⟨⟨r, db₁⟩, h₁⟩ := pqReapOne_ok hg clock env id
    have hreaped := pqReapOne_reaped hg h₁
    obtain ⟨j, hj, hjdue⟩ := hdue id (by simp)
    obtain ⟨reply, rfl⟩ := isSome_iff_exists.1
      (hreaped.due.2 ⟨j, hj, hjdue.mono (le_reapTime hclock)⟩)
    obtain ⟨-, j', -, hj', hreply, -, -⟩ := hreaped.moved reply rfl
    have hid : j'.jobId = id := congrArg Prod.snd (Table.find_eq_some.1 hj').2
    have hlater : ∀ i, t ≤ (clock.later 8).read i := fun i => hclock (8 + i)
    obtain ⟨replies, db', hrest, hids⟩ := ih (hg.of_reach (pqReapOne_reach hg h₁)) hlater hnodup
      fun id' hid' => by
        have hne : (env, id') ≠ (env, id) := by
          rintro heq
          obtain rfl : id' = id := congrArg Prod.snd heq
          exact hfresh hid'
        rw [hreaped.others _ hne]
        exact hdue id' (by simp [hid'])
    refine ⟨reply :: replies, db', ?_, ?_⟩
    · rw [reapEach]
      exact bind_eq_ok.2 ⟨_, h₁, bind_eq_ok.2 ⟨_, hrest, rfl⟩⟩
    · rw [filterMap_cons, hreply, hids]
      simp [hid]

/-- A page moves the first of the due jobs beyond its cursor. -/
theorem pqReap_page (env : String) (after : Option Uuid) (limit : ℤ) (hg : Jobs.Good {.noop} db.view)
    (hclock : clock.Monotone) (hlimit : 1 ≤ limit ∧ limit ≤ 100) :
    ∃ page db', pqReap db clock env after (some limit) = .ok (page, db') ∧
      page.visited = (beyond (dueIds db env clock.statement) after).take limit.toNat ∧
      page.nextAfterJobId =
        if page.visited.length < limit then none else page.visited.getLast? := by
  have hids : pqDue db clock env after (some limit) = _ := pqDue_eq hlimit
  have hsorted := beyond_pairwise (dueIds_sorted db env clock.statement) after
  have hnodup : (pqDue db clock env after (some limit)).Nodup := by
    rw [hids]
    exact (hsorted.imp ne_of_lt).sublist (take_sublist _ _)
  have hdue : ∀ id ∈ pqDue db clock env after (some limit),
      ∃ j, (db.view (env, id)).job = some j ∧ j.Due clock.statement := by
    intro id hid
    rw [hids] at hid
    exact mem_dueIds.1 (mem_beyond.1 (mem_of_mem_take hid)).1
  have hreads : ∀ i, clock.statement ≤ clock.read i :=
    fun i => hclock.statement_le.trans (hclock.read_le 0 i (Nat.zero_le i))
  obtain ⟨replies, db', heach, hvisited⟩ := reapEach_due hg hreads hnodup hdue
  refine ⟨reapPage (some limit) (pqDue db clock env after (some limit)) replies, db', ?_, ?_, ?_⟩
  · have hbound : ¬ (some limit).any (fun n => n < 1 || 100 < n) = true := by
      simp only [any_some, Bool.or_eq_true, decide_eq_true_eq]
      omega
    rw [pqReap, if_neg hbound]
    exact bind_eq_ok.2 ⟨_, heach, rfl⟩
  · exact hvisited.trans hids
  · have hv : (reapPage (some limit) (pqDue db clock env after (some limit)) replies).visited =
        pqDue db clock env after (some limit) := hvisited
    rw [hv]
    simp [reapPage]

/-! ## Every page -/

/-- What the reader has visited and what is still to come are the due jobs. A page that is not the last
visits as many as the limit. -/
private structure Pager.Sound (p : Pager) (limit : ℤ) (due : List Uuid) : Prop where
  good : Jobs.Good {.noop} p.db.view
  split : p.visited ++ (if p.ended then [] else beyond due p.after) = due
  count : p.pages * limit ≤ p.visited.length + if p.ended then limit else 0

private theorem Pager.Unchanged.beyond_eq {p : Pager}
    (h : p.Unchanged env due now) (hdue : due.Pairwise (· < ·)) :
    beyond (dueIds p.db env now) p.after = beyond due p.after := by
  refine (beyond_pairwise (dueIds_sorted _ _ _) _).eq_of_mem_iff (beyond_pairwise hdue _) fun id => ?_
  rw [mem_beyond, mem_beyond]
  exact ⟨fun hid => ⟨(h id hid.2).1 hid.1, hid.2⟩, fun hid => ⟨(h id hid.2).2 hid.1, hid.2⟩⟩

private theorem Pager.Step.sound {p p' : Pager} {limit : ℤ}
    (hdue : due.Pairwise (· < ·)) (hlimit : 1 ≤ limit ∧ limit ≤ 100) (hp : p.Sound limit due)
    (h : Pager.Step env limit due p p') : p'.Sound limit due := by
  obtain ⟨hgood, hsplit, hcount⟩ := hp
  cases h with
  | @page page db' clock hclock hopen hsame hreap =>
    obtain ⟨page', db₁, hreap', hvisited, hnext⟩ := pqReap_page env _ limit hgood hclock hlimit
    obtain ⟨rfl, rfl⟩ : page' = page ∧ db₁ = db' := by
      rw [hreap] at hreap'
      cases hreap'
      exact ⟨rfl, rfl⟩
    rw [hsame.beyond_eq hdue] at hvisited
    rw [hopen, if_neg Bool.false_ne_true] at hsplit
    simp only [hopen, Bool.false_eq_true, if_false, Int.add_zero] at hcount
    have hpages : ((p.pages + 1 : ℕ) : ℤ) * limit = p.pages * limit + limit := by
      push_cast
      rw [Int.add_mul, Int.one_mul]
    by_cases hlast : (page'.visited.length : ℤ) < limit
    · rw [if_pos hlast] at hnext
      refine ⟨hgood.of_reach (pqReap_reach hgood hreap), ?_, ?_⟩
      · have hall : page'.visited = beyond due p.after := by
          rw [hvisited] at hlast ⊢
          exact page_last (by omega)
        simp only [hnext, isNone_none, if_true, append_nil]
        rw [hall, hsplit]
      · simp only [hnext, isNone_none, if_true, length_append]
        rw [hpages]
        push_cast
        omega
    · rw [if_neg hlast] at hnext
      obtain ⟨x, hx⟩ : ∃ x, page'.visited.getLast? = some x := by
        cases hlist : page'.visited.getLast? with
        | some x => exact ⟨x, rfl⟩
        | none =>
          rw [getLast?_eq_none_iff.1 hlist] at hlast
          simp at hlast
          omega
      rw [hx] at hnext
      refine ⟨hgood.of_reach (pqReap_reach hgood hreap), ?_, ?_⟩
      · simp only [hnext, isNone_some, Bool.false_eq_true, if_false]
        rw [append_assoc, hvisited, ← page_next hdue (hvisited ▸ hx), hsplit]
      · simp only [hnext, isNone_some, Bool.false_eq_true, if_false, length_append]
        rw [hpages]
        push_cast
        omega
  | other hs => exact ⟨hgood.of_reach (hs.reach hgood), hsplit, hcount⟩

/-- Over any calls between them, the pages come to each due job once and end. -/
theorem pages_once {p : Pager} {limit : ℤ} (hg : Jobs.Good {.noop} db.view)
    (hdue : due.Pairwise (· < ·)) (hlimit : 1 ≤ limit ∧ limit ≤ 100)
    (h : Relation.ReflTransGen (Pager.Step env limit due) { db := db } p) :
    p.Once env limit due := by
  have hsound : p.Sound limit due := by
    induction h with
    | refl => exact ⟨hg, by simp, by simp⟩
    | tail _ hs ih => exact hs.sound hdue hlimit ih
  obtain ⟨hgood, hsplit, hcount⟩ := hsound
  refine ⟨hdue.imp ne_of_lt, ⟨_, hsplit⟩, fun hended => ?_, ?_, fun _ clock hclock _ => ?_⟩
  · rw [if_pos hended, append_nil] at hsplit
    exact hsplit
  · have hlength := congrArg List.length hsplit
    rw [length_append] at hlength
    split at hcount <;> omega
  · obtain ⟨page, db', hreap, -⟩ := pqReap_page env _ limit hgood hclock hlimit
    exact ⟨page, db', hreap⟩

/-! ## Every run -/

/-- In every database that the calls reach: a job that has not ended, is not held and whose time has
come is either claimed or listed, and a job that waits has budget left; the jobs that are listed are
those that `pq_reap_one` moves, each to its end or to where a claim can take it; and a reader that
pages through `pq_reap`, with a limit from 1 to 100, comes to each of them once and ends. -/
theorem no_stuck_job {conversations : List ℤ} {es : List Event}
    (h : Run Step (.fresh conversations) es db) :
    (∀ j ∈ db.jobs.rows, (j.state.waiting → j.spent < j.maxAttempts) ∧
      ∀ now, j.state.terminal = false → ¬ j.Leased now → j.eligibleAt ≤ now →
        Xor (j.Claimable j.env j.priority now) (j.Due now)) ∧
    (∀ env job now, job ∈ dueIds db env now ↔
      ∃ clock after limit, clock.statement = now ∧ job ∈ pqDue db clock env after limit) ∧
    (∀ clock env job, ∃ r db', pqReapOne db clock env job = .ok (r, db') ∧
      Reaped db clock (env, job) r db' ∧ (clock.Monotone →
        (job ∈ dueIds db env clock.statement → r.isSome) ∧
          (r.isSome → job ∈ dueIds db env (clock.read 1)))) ∧
    ∀ env limit now p, 1 ≤ limit → limit ≤ 100 →
      Relation.ReflTransGen (Pager.Step env limit (dueIds db env now)) { db := db } p →
        p.Once env limit (dueIds db env now) := by
  have hg := reachable_good h
  refine ⟨fun j hj => ?_, fun env job now => mem_dueIds_iff_listed, fun clock env job => ?_,
    fun env limit now p hlow hhigh hp => pages_once hg (dueIds_sorted _ _ _) ⟨hlow, hhigh⟩ hp⟩
  · have hview : (db.view j.key).job = some j := Table.find_of_mem hj
    have hs := (hg.ok j.key).sound j hview
    exact ⟨hs.budget, fun now => claimable_xor_due hs.leased⟩
  · obtain ⟨⟨r, db'⟩, hreap⟩ := pqReapOne_ok hg clock env job
    have hreaped := pqReapOne_reaped hg hreap
    refine ⟨r, db', hreap, hreaped, fun hclock => ⟨fun hlisted => ?_, fun hr => ?_⟩⟩
    · obtain ⟨j, hj, hdue⟩ := mem_dueIds.1 hlisted
      refine hreaped.due.2 ⟨j, hj, hdue.mono (le_reapTime fun i => ?_)⟩
      exact hclock.statement_le.trans (hclock.read_le 0 i (Nat.zero_le i))
    · obtain ⟨j, hj, hdue⟩ := hreaped.due.1 hr
      refine mem_dueIds.2 ⟨j, hj, hdue.mono ?_⟩
      unfold reapTime
      split
      · exact hclock.read_le 0 1 (Nat.zero_le 1)
      · exact le_refl _

/-- A job is claimed at time 1 for ten seconds. -/
private def lapsedClaim : List (Clock × Call) :=
  [(.still 0, .enqueue (sampleRequest "first" 10 20)),
    (.still 1, .claim "dev" 1 (some 5) (some 6) (some 10))]

theorem no_stuck_job_lapsed :
    let db := (history (.fresh [1]) lapsedClaim).2
    ∃ p : Pager, p.visited = [20] ∧ p.Once "dev" 1 (dueIds db "dev" (seconds 20)) := by
  intro db
  have hrun := history_run [1] lapsedClaim
  have hclock : (Clock.still (seconds 20)).Monotone := ⟨le_refl _, fun _ _ _ => le_refl _⟩
  obtain ⟨page, db', hreap, hvisited, -⟩ :=
    pqReap_page "dev" none 1 (reachable_good hrun) hclock (by decide)
  refine ⟨_, ?_, (no_stuck_job hrun).2.2.2 "dev" 1 (seconds 20) _ (by decide) (by decide)
    (.single (.page _ hclock rfl (fun _ _ => Iff.rfl) hreap))⟩
  show [] ++ page.visited = [20]
  rw [hvisited]
  decide +kernel

end Polis.Queue
