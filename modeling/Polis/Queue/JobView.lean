import Polis.Queue.Substrate

/-!
# What the tables say about one job

`Database.view` gathers the rows of one job from five tables. A write to one of the tables changes the
view of one job, as the operations on views below say. `Effect` is what the writes of a call have in
common: they change one view and leave the other tables alone.
-/

namespace Polis.Queue

open List Function Option Database

variable {f : JobRow → JobRow}

/-- An environment and a job id. -/
abbrev JobKey := String × Uuid

/-- The rows of a job: its own, its run, its attempts, its provider requests and its logical job. -/
structure JobView where
  job : Option JobRow := none
  run : Option RunRow := none
  attempts : List AttemptRow := []
  requests : List ProviderRow := []
  delphi : Option DelphiJobRow := none

def Database.view (db : Database) (k : JobKey) : JobView where
  job := db.jobs.find k
  run := (db.jobs.find k).bind fun j => db.runs.find (j.env, j.runId)
  attempts := db.attempts.rows.filter fun a => (a.env, a.jobId) = k
  requests := db.providerRequests.rows.filter fun r => (r.env, r.jobId) = k
  delphi := (db.delphiJobs.find k.2).filter fun d => d.env = k.1

/-! ## Writes to a view -/

namespace JobView

variable (v : JobView)

def setJob (f : JobRow → JobRow) : JobView := { v with job := v.job.map f }

/-- The logical job follows the state of a job that is not a noop. -/
def setState (now : Time) (f : JobRow → JobRow) : JobView :=
  { v with
    job := v.job.map f
    delphi := match v.job.map f with
      | none => v.delphi
      | some j => if j.stage = .noop then v.delphi else v.delphi.map (·.sync j now) }

def setRun (f : RunRow → RunRow) : JobView := { v with run := v.run.map f }

def setAttempt (id : Option Uuid) (f : AttemptRow → AttemptRow) : JobView :=
  { v with attempts := v.attempts.map fun a => if some a.attemptId = id then f a else a }

def addAttempt (a : AttemptRow) : JobView := { v with attempts := v.attempts ++ [a] }

def setRequest (id : Uuid) (f : ProviderRow → ProviderRow) : JobView :=
  { v with requests := v.requests.map fun r => if r.requestId = id then f r else r }

def addRequest (r : ProviderRow) : JobView := { v with requests := v.requests ++ [r] }

def setDelphi (f : DelphiJobRow → DelphiJobRow) : JobView := { v with delphi := v.delphi.map f }

end JobView

/-! ## Rows and keys -/

/-- A change of a job that keeps what identifies it. -/
def JobRow.Keeps (f : JobRow → JobRow) : Prop :=
  ∀ j, (f j).env = j.env ∧ (f j).jobId = j.jobId ∧ (f j).runId = j.runId

/-- A change of a run that keeps what it was requested as. -/
def RunRow.Keeps (f : RunRow → RunRow) : Prop :=
  ∀ r, (f r).env = r.env ∧ (f r).runId = r.runId ∧ (f r).productKey = r.productKey ∧
    (f r).requestedGeneration = r.requestedGeneration ∧ (f r).zid = r.zid ∧
    (f r).codeImageDigest = r.codeImageDigest ∧ (f r).createdAt = r.createdAt

/-- A change of an attempt that keeps what identifies it. -/
def AttemptRow.Keeps (f : AttemptRow → AttemptRow) : Prop :=
  ∀ a, (f a).env = a.env ∧ (f a).attemptId = a.attemptId ∧ (f a).jobId = a.jobId ∧
    (f a).ownerId = a.ownerId ∧ (f a).leaseEpoch = a.leaseEpoch

/-- A change of a provider request that keeps what identifies it. -/
def ProviderRow.Keeps (f : ProviderRow → ProviderRow) : Prop :=
  ∀ r, (f r).requestId = r.requestId ∧ (f r).env = r.env ∧ (f r).jobId = r.jobId ∧
    (f r).attemptId = r.attemptId

/-- A change of a logical job that keeps what it was admitted as. -/
def DelphiJobRow.Keeps (f : DelphiJobRow → DelphiJobRow) : Prop :=
  ∀ d, (f d).jobId = d.jobId ∧ (f d).env = d.env ∧ (f d).parentJobId = d.parentJobId ∧
    (f d).kind = d.kind ∧ (f d).zid = d.zid ∧ (f d).reportId = d.reportId

variable {db db' : Database} {k : JobKey} {j : JobRow}

theorem Database.view_job : (db.view k).job = db.jobs.find k := rfl

theorem Database.key_of_view (h : (db.view k).job = some j) : (j.env, j.jobId) = k :=
  (Table.find_eq_some.1 h).2

/-- Two jobs have different runs. -/
def RunsDistinct (views : JobKey → JobView) : Prop :=
  ∀ k k' j j', (views k).job = some j → (views k').job = some j' →
    (j.env, j.runId) = (j'.env, j'.runId) → k = k'

/-! ## The effect of a call -/

/-- The product and the generation of every run, in the order of the requests. -/
def Database.requested (db : Database) : List (String × String × ℤ × Uuid) :=
  db.runs.rows.map fun r => (r.env, r.productKey, r.requestedGeneration, r.runId)

/-- The writes of a call change the view of one job by `g`. They leave what was requested and the
runs that have ended as they are, and the tables that have nothing to do with the job. -/
structure Effect (db db' : Database) (k : JobKey) (g : JobView → JobView) : Prop where
  view : db'.view = update db.view k (g (db.view k))
  requested : db'.requested = db.requested
  ended : ∀ kr r, db.runs.find kr = some r → r.state ≠ .pending → db'.runs.find kr = some r
  heads : db'.heads = db.heads
  guards : db'.guards = db.guards
  requests : db'.requests = db.requests
  conversations : db'.conversations = db.conversations

namespace Effect

variable {db₁ db₂ : Database} {f g : JobView → JobView}

theorem refl (h : g (db.view k) = db.view k) : Effect db db k g where
  view := by rw [h, update_eq_self]
  requested := rfl
  ended _ _ h _ := h
  heads := rfl
  guards := rfl
  requests := rfl
  conversations := rfl

theorem trans (hf : Effect db db₁ k f) (hg : Effect db₁ db₂ k g) : Effect db db₂ k (g ∘ f) where
  view := by
    rw [hg.view, hf.view, update_self, update_idem, comp_apply]
  requested := hg.requested.trans hf.requested
  ended kr r h hr := hg.ended kr r (hf.ended kr r h hr) hr
  heads := hg.heads.trans hf.heads
  guards := hg.guards.trans hf.guards
  requests := hg.requests.trans hf.requests
  conversations := hg.conversations.trans hf.conversations

theorem congr (h : Effect db db' k f) (hfg : f (db.view k) = g (db.view k)) :
    Effect db db' k g where
  view := hfg ▸ h.view
  requested := h.requested
  ended := h.ended
  heads := h.heads
  guards := h.guards
  requests := h.requests
  conversations := h.conversations

theorem view_self (h : Effect db db' k g) : db'.view k = g (db.view k) := by
  rw [h.view, update_self]

theorem view_of_ne (h : Effect db db' k g) {k' : JobKey} (hk : k' ≠ k) :
    db'.view k' = db.view k' := by
  rw [h.view, update_of_ne hk]

end Effect

/-! ## The effect of a write -/

private theorem view_eq_update {g : JobView → JobView} (hself : db'.view k = g (db.view k))
    (hother : ∀ k' ≠ k, db'.view k' = db.view k') :
    db'.view = update db.view k (g (db.view k)) := by
  funext k'
  by_cases hk : k' = k
  · rw [hk, hself, update_self]
  · rw [hother k' hk, update_of_ne hk]

theorem updateJob_effect (hf : JobRow.Keeps f)
    (h : db.updateJob k f = .ok db') : Effect db db' k (·.setJob f) := by
  obtain ⟨t, ht, rfl⟩ := write_eq_ok.1 h
  have hkey : ∀ j : JobRow, Row.key (f j) = Row.key j :=
    fun j => Prod.ext (hf j).1 (hf j).2.1
  refine ⟨view_eq_update (g := (·.setJob f)) ?_ ?_, rfl, fun _ _ h _ => h, rfl, rfl, rfl, rfl⟩
  · have hfind : t.find k = (db.jobs.find k).map f := by rw [Table.find_update hkey ht, if_pos rfl]
    have hrun : ((db.jobs.find k).map f).bind (fun j => db.runs.find (j.env, j.runId)) =
        (db.jobs.find k).bind fun j => db.runs.find (j.env, j.runId) := by
      cases db.jobs.find k with
      | none => rfl
      | some j => simp [(hf j).1, (hf j).2.2]
    simp only [view, JobView.setJob, hfind, hrun]
  · intro k' hk
    have hfind : t.find k' = db.jobs.find k' := by rw [Table.find_update hkey ht, if_neg hk]
    simp only [view, hfind]

theorem updateDelphiJob_effect {f : DelphiJobRow → DelphiJobRow} (hf : DelphiJobRow.Keeps f)
    (h : db.updateDelphiJob k f = .ok db') : Effect db db' k (·.setDelphi f) := by
  obtain ⟨t, ht, rfl⟩ := write_eq_ok.1 h
  have hkey : ∀ d : DelphiJobRow, Row.key (if d.env = k.1 then f d else d) = Row.key d := by
    intro d
    split
    · exact (hf d).1
    · rfl
  refine ⟨view_eq_update (g := (·.setDelphi f)) ?_ ?_, rfl, fun _ _ h _ => h, rfl, rfl, rfl, rfl⟩
  · have hfind : (t.find k.2).filter (fun d => d.env = k.1) =
        ((db.delphiJobs.find k.2).filter fun d => d.env = k.1).map f := by
      rw [Table.find_update hkey ht, if_pos rfl]
      cases db.delphiJobs.find k.2 with
      | none => rfl
      | some d =>
        by_cases hd : d.env = k.1
        · simp [Option.filter, hd, (hf d).2.1]
        · simp [Option.filter, hd]
    simp only [view, JobView.setDelphi, hfind]
  · intro k' hk
    have hfind : (t.find k'.2).filter (fun d => d.env = k'.1) =
        (db.delphiJobs.find k'.2).filter fun d => d.env = k'.1 := by
      rw [Table.find_update hkey ht]
      by_cases hid : k'.2 = k.2
      · rw [if_pos hid, ← hid]
        have henv : k'.1 ≠ k.1 := fun henv => hk (Prod.ext henv hid)
        cases db.delphiJobs.find k'.2 with
        | none => rfl
        | some d =>
          by_cases hd : d.env = k.1
          · simp [Option.filter, hd, (hf d).2.1, Ne.symm henv]
          · simp [hd]
      · rw [if_neg hid]
    simp only [view, hfind]

theorem updateJobState_effect {now : Time} (hf : JobRow.Keeps f)
    (h : db.updateJobState k now f = .ok db') : Effect db db' k (·.setState now f) := by
  obtain ⟨db₁, h₁, h₂⟩ := bind_eq_ok.1 h
  have hjob := updateJob_effect hf h₁
  have hfind : db₁.jobs.find k = (db.view k).job.map f := congrArg JobView.job hjob.view_self
  rw [hfind] at h₂
  cases hj : (db.view k).job.map f with
  | none =>
    rw [hj] at h₂
    cases h₂
    refine hjob.congr ?_
    simp [JobView.setJob, JobView.setState, hj]
  | some j =>
    rw [hj] at h₂
    by_cases hstage : j.stage = .noop
    · obtain rfl : db₁ = db' := by simpa [hstage] using h₂
      refine hjob.congr ?_
      simp [JobView.setJob, JobView.setState, hj, hstage]
    · have hsync : db₁.updateDelphiJob k (·.sync j now) = .ok db' := by simpa [hstage] using h₂
      have hdelphi := updateDelphiJob_effect (f := (·.sync j now)) (fun _ => ⟨rfl, rfl, rfl, rfl,
        rfl, rfl⟩) hsync
      refine (hjob.trans hdelphi).congr ?_
      simp [JobView.setJob, JobView.setDelphi, JobView.setState, hj, hstage]

theorem updateJobState_tables {now : Time}
    (h : db.updateJobState k now f = .ok db') :
    ∃ jobs delphiJobs, db' = { db with jobs, delphiJobs } := by
  obtain ⟨db₁, h₁, h₂⟩ := bind_eq_ok.1 h
  obtain ⟨jobs, -, rfl⟩ := write_eq_ok.1 h₁
  cases hj : jobs.find k with
  | none =>
    simp only [hj] at h₂
    cases h₂
    exact ⟨jobs, _, rfl⟩
  | some j =>
    simp only [hj] at h₂
    split at h₂
    · cases h₂
      exact ⟨jobs, _, rfl⟩
    · obtain ⟨delphiJobs, -, rfl⟩ := write_eq_ok.1 h₂
      exact ⟨jobs, delphiJobs, rfl⟩

/-- Attempt ids are unique in an environment, so the view of another job has none of the id. -/
theorem updateAttempt_effect {f : AttemptRow → AttemptRow} {id : Uuid} (hf : AttemptRow.Keeps f)
    (hk : ∀ a, db.attempts.find (k.1, id) = some a → a.jobId = k.2)
    (h : db.updateAttempt (k.1, id) f = .ok db') : Effect db db' k (·.setAttempt (some id) f) := by
  obtain ⟨t, ht, rfl⟩ := write_eq_ok.1 h
  have hfilter : ∀ (k' : JobKey) (a : AttemptRow),
      decide (((f a).env, (f a).jobId) = k') = decide ((a.env, a.jobId) = k') := by
    intro k' a
    rw [(hf a).1, (hf a).2.2.1]
  refine ⟨view_eq_update (g := (·.setAttempt (some id) f)) ?_ ?_, rfl, fun _ _ h _ => h, rfl, rfl,
    rfl, rfl⟩
  · have hrows : t.rows.filter (fun a => (a.env, a.jobId) = k) =
        (db.attempts.rows.filter fun a => (a.env, a.jobId) = k).map fun a =>
          if some a.attemptId = some id then f a else a := by
      rw [Table.filter_update (hfilter k) ht]
      refine map_congr_left fun a ha => ?_
      have henv : a.env = k.1 := by
        have hmem : (a.env, a.jobId) = k := by simpa using (mem_filter.1 ha).2
        exact congrArg Prod.fst hmem
      have hkey : Row.key a = (k.1, id) ↔ some a.attemptId = some id := by
        simp [Row.key, henv]
      simp only [hkey]
    simp only [view, JobView.setAttempt, hrows]
  · intro k' hne
    have hrows : t.rows.filter (fun a => (a.env, a.jobId) = k') =
        db.attempts.rows.filter fun a => (a.env, a.jobId) = k' := by
      refine Table.filter_update_of_not (hfilter k') (fun a ha => ?_) ht
      have henv : a.env = k.1 := congrArg Prod.fst (Table.find_eq_some.1 ha).2
      rw [decide_eq_false_iff_not, henv, hk a ha]
      exact fun heq => hne heq.symm
    simp only [view, hrows]

/-- The attempt of a job, if there is one with the id. -/
theorem updateAttemptOf_effect {f : AttemptRow → AttemptRow} {id : Option Uuid}
    (hf : AttemptRow.Keeps f)
    (hk : ∀ i ∈ id, ∀ a, db.attempts.find (k.1, i) = some a → a.jobId = k.2)
    (h : updateAttemptOf db k.1 id f = .ok db') : Effect db db' k (·.setAttempt id f) := by
  cases id with
  | none =>
    cases h
    exact .refl (by simp [JobView.setAttempt])
  | some i => exact updateAttempt_effect hf (hk i rfl) h

theorem insertAttempt_effect {a : AttemptRow} (ha : (a.env, a.jobId) = k)
    (h : db.insertAttempt a = .ok db') : Effect db db' k (·.addAttempt a) := by
  obtain ⟨t, ht, rfl⟩ := write_eq_ok.1 h
  refine ⟨view_eq_update (g := (·.addAttempt a)) ?_ ?_, rfl, fun _ _ h _ => h, rfl, rfl, rfl, rfl⟩
  · simp [view, JobView.addAttempt, Table.filter_insert ht, ha]
  · intro k' hk
    have hne : (a.env, a.jobId) ≠ k' := fun heq => hk (heq.symm.trans ha)
    simp [view, Table.filter_insert ht, hne]

/-- The run of a job is that of no other job. -/
theorem updateRun_effect {f : RunRow → RunRow} (hf : RunRow.Keeps f) (hd : RunsDistinct db.view)
    (hj : (db.view k).job = some j) (hr : ∀ r ∈ (db.view k).run, r.state = .pending)
    (h : db.updateRun (j.env, j.runId) f = .ok db') : Effect db db' k (·.setRun f) := by
  obtain ⟨t, ht, rfl⟩ := write_eq_ok.1 h
  have hkey : ∀ r : RunRow, Row.key (f r) = Row.key r := fun r => Prod.ext (hf r).1 (hf r).2.1
  have hfind : ∀ kr, t.find kr = if kr = (j.env, j.runId) then (db.runs.find kr).map f
      else db.runs.find kr := by
    intro kr
    rw [Table.find_update hkey ht]
    split
    · next heq => rw [heq]
    · rfl
  refine ⟨view_eq_update (g := (·.setRun f)) ?_ ?_, ?_, ?_, rfl, rfl, rfl, rfl⟩
  · have hj' : db.jobs.find k = some j := hj
    simp [view, JobView.setRun, hj', hfind]
  · intro k' hk
    have hrun : ((db.jobs.find k').bind fun j => t.find (j.env, j.runId)) =
        (db.jobs.find k').bind fun j => db.runs.find (j.env, j.runId) := by
      cases hj' : db.jobs.find k' with
      | none => rfl
      | some j' =>
        have hne : (j'.env, j'.runId) ≠ (j.env, j.runId) := fun heq => hk (hd _ _ _ _ hj' hj heq)
        rw [bind_some, bind_some, hfind, if_neg hne]
    simp only [view, hrun]
  · simp only [requested, Table.update_rows ht, List.map_map]
    refine List.map_congr_left fun r _ => ?_
    rw [comp_apply]
    split
    · rw [(hf r).1, (hf r).2.1, (hf r).2.2.1, (hf r).2.2.2.1]
    · rfl
  · intro kr r hfound hended
    show t.find kr = some r
    rw [hfind, if_neg, hfound]
    rintro rfl
    refine hended (hr r ?_)
    show r ∈ (db.jobs.find k).bind fun j => db.runs.find (j.env, j.runId)
    rw [show db.jobs.find k = some j from hj]
    exact hfound

theorem insertProviderRequest_effect {r : ProviderRow} (hr : (r.env, r.jobId) = k)
    (h : db.insertProviderRequest r = .ok db') : Effect db db' k (·.addRequest r) := by
  obtain ⟨t, ht, rfl⟩ := write_eq_ok.1 h
  refine ⟨view_eq_update (g := (·.addRequest r)) ?_ ?_, rfl, fun _ _ h _ => h, rfl, rfl, rfl, rfl⟩
  · simp [view, JobView.addRequest, Table.filter_insert ht, hr]
  · intro k' hk
    have hne : (r.env, r.jobId) ≠ k' := fun heq => hk (heq.symm.trans hr)
    simp [view, Table.filter_insert ht, hne]

theorem updateProviderRequest_effect {f : ProviderRow → ProviderRow} {id : Uuid}
    (hf : ProviderRow.Keeps f)
    (hk : ∀ r, db.providerRequests.find id = some r → (r.env, r.jobId) = k)
    (h : db.updateProviderRequest id f = .ok db') : Effect db db' k (·.setRequest id f) := by
  obtain ⟨t, ht, rfl⟩ := write_eq_ok.1 h
  have hfilter : ∀ (k' : JobKey) (r : ProviderRow),
      decide (((f r).env, (f r).jobId) = k') = decide ((r.env, r.jobId) = k') := by
    intro k' r
    rw [(hf r).2.1, (hf r).2.2.1]
  refine ⟨view_eq_update (g := (·.setRequest id f)) ?_ ?_, rfl, fun _ _ h _ => h, rfl, rfl, rfl,
    rfl⟩
  · have hrows : t.rows.filter (fun r => (r.env, r.jobId) = k) =
        (db.providerRequests.rows.filter fun r => (r.env, r.jobId) = k).map fun r =>
          if r.requestId = id then f r else r := by
      rw [Table.filter_update (hfilter k) ht]
      rfl
    simp only [view, JobView.setRequest, hrows]
  · intro k' hne
    have hrows : t.rows.filter (fun r => (r.env, r.jobId) = k') =
        db.providerRequests.rows.filter fun r => (r.env, r.jobId) = k' := by
      refine Table.filter_update_of_not (hfilter k') (fun r hr => ?_) ht
      rw [decide_eq_false_iff_not, hk r hr]
      exact fun heq => hne heq.symm
    simp only [view, hrows]

end Polis.Queue
