import Polis.Queue.Refinement

/-!
# The publication pointer

A product's head counts the requests for it and points at the output of one that succeeded. Requests,
late finishes and repeated ones come in any order; the pointer moves to a run exactly when that run
finishes while it is the newest request.

Reference: `server/postgres/migrations/000019_create_polis_queue.sql`.
-/

namespace Polis.Queue

open List Option Database

/-! ## The statement -/

/-- The runs of a product in the order of the requests. -/
def Database.runsOf (db : Database) (env product : String) : List RunRow :=
  db.runs.rows.filter fun r => r.env = env ∧ r.productKey = product

/-- What the head of a product publishes. -/
def HeadRow.pointer (h : HeadRow) : Option Uuid × ℤ × Option String :=
  (h.publishedRunId, h.publishedGeneration, h.publishedSha256)

/-- The pointer is empty, or names a run of the product that succeeded, its generation and its
output. -/
def HeadRow.Publishes (db : Database) (h : HeadRow) : Prop :=
  h.pointer = (none, 0, none) ∨ ∃ r ∈ db.runsOf h.env h.productKey, r.state = .succeeded ∧
    h.pointer = (some r.runId, r.requestedGeneration, r.outputSha256)

/-- The generations of a product are counted without a gap, and its head agrees with them. -/
structure ProductConsistent (db : Database) (env product : String) : Prop where
  generations : ∃ n : ℕ, (db.runsOf env product).map (·.requestedGeneration) =
      (List.range' 1 n).map (fun i : ℕ => (i : ℤ)) ∧
    ∀ h, db.heads.find (env, product) = some h → h.requestedGeneration = n
  published : ∀ h, db.heads.find (env, product) = some h →
    h.publishedGeneration ≤ h.requestedGeneration ∧ h.Publishes db

/-- The event is a finalize that succeeds with the run `r`. -/
def Finalizes (db : Database) (e : Event) (r : RunRow) : Prop :=
  ∃ job token uri sha reply j, e.call = .finalize r.env job token uri sha ∧
    e.answer = .ok (.reply reply) ∧ reply.outcome = .state .succeeded ∧
      db.jobs.find (r.env, job) = some j ∧ db.runs.find (r.env, j.runId) = some r

/-- No run of the product was requested after `r`. -/
def Newest (db : Database) (r : RunRow) : Prop :=
  ∀ r' ∈ db.runsOf r.env r.productKey, r'.requestedGeneration ≤ r.requestedGeneration

/-- A step keeps every head and its generations do not fall. Its pointer moves exactly when the newest
run of the product succeeds, and to that run. -/
def HeadsAdvance (db : Database) (e : Event) (db' : Database) : Prop :=
  ∀ kh h, db.heads.find kh = some h → ∃ h', db'.heads.find kh = some h' ∧
    h.requestedGeneration ≤ h'.requestedGeneration ∧
    h.publishedGeneration ≤ h'.publishedGeneration ∧
    (h'.pointer ≠ h.pointer ↔ ∃ r, Finalizes db e r ∧ (r.env, r.productKey) = kh ∧ Newest db r) ∧
    ∀ r, Finalizes db e r → (r.env, r.productKey) = kh → Newest db r →
      h'.pointer = (some r.runId, r.requestedGeneration, some r.expectedOutputSha256)

/-- The environment and the attempt of a finalize that succeeded. -/
def Event.finalized (e : Event) : Option (String × Option Uuid) :=
  match e.call, e.answer with
  | .finalize env _ token _ _, .ok (.reply r) =>
    if r.outcome = .state .succeeded then some (env, token.attempt) else none
  | _, _ => none

/-- A finalize for an attempt that has succeeded before changes nothing. -/
def RepeatsNothing (es : List Event) (db : Database) (e : Event) (db' : Database) : Prop :=
  ∀ env job token uri sha, e.call = .finalize env job token uri sha →
    (env, token.attempt) ∈ es.filterMap Event.finalized → db' = db

/-! ## What a call leaves to the heads -/

/-- The heads, what was requested and the runs that have ended are as they were. -/
structure Frame (db db' : Database) : Prop where
  heads : db'.heads = db.heads
  requested : db'.requested = db.requested
  ended : ∀ kr r, db.runs.find kr = some r → r.state ≠ .pending → db'.runs.find kr = some r

variable {db db' : Database} {clock : Clock} {k : JobKey} {j j' : JobRow} {token : Token}
  {reply : Reply}
variable {r : RunRow} {e : Event} {error : Option String}
variable {env : String} {job : Uuid}

namespace Frame

theorem refl (db : Database) : Frame db db := ⟨rfl, rfl, fun _ _ h _ => h⟩

theorem trans {db₁ : Database} (h : Frame db db₁) (h' : Frame db₁ db') : Frame db db' where
  heads := h'.heads.trans h.heads
  requested := h'.requested.trans h.requested
  ended kr r hr hs := h'.ended kr r (h.ended kr r hr hs) hs

end Frame

theorem Effect.frame {g : JobView → JobView} (he : Effect db db' k g) : Frame db db' :=
  ⟨he.heads, he.requested, he.ended⟩

section Noops

variable (hg : Jobs.Good {.noop} db.view)

include hg

theorem pqEndAttempt_frame {action : EndAction}
    (h : pqEndAttempt db clock env job token action error = .ok (reply, db')) : Frame db db' := by
  rcases pqEndAttempt_spec h with ⟨rfl, -⟩ | ⟨j, j', hj, howns, -, -, -, h₁⟩
  · exact .refl _
  · exact (pqTerminateAttempt_effect hg (key_eq hj) (pqOwns_iff.1 howns).1 h₁).2.frame

theorem pqReapOne_frame {r : Option Reply} (h : pqReapOne db clock env job = .ok (r, db')) :
    Frame db db' := by
  rcases pqReapOne_spec h with ⟨rfl, -⟩ | ⟨j, hj, hcases⟩
  · exact .refl _
  rcases hcases with ⟨hrunning, -, j', reply, -, -, -, h₁⟩ | ⟨hparked, -, h₁⟩ | ⟨hwaiting, -, h₁⟩
  · exact (pqTerminateAttempt_effect hg (key_eq hj) hrunning h₁).2.frame
  · exact (reapJob_effect (JobRow.woken_keeps _ _) hg (key_eq hj) (by rw [hparked]; rfl) h₁).2.frame
  · exact (reapJob_effect (JobRow.exhausted_keeps _) hg (key_eq hj)
      (JobState.waiting_not_terminal hwaiting) h₁).2.frame

theorem reapEach_frame {ids : List Uuid} {replies : List Reply}
    (h : reapEach (pqReapOne · · env ·) db clock ids = .ok (replies, db')) : Frame db db' := by
  induction ids generalizing db clock replies with
  | nil =>
    cases h
    exact .refl _
  | cons id ids ih =>
    obtain ⟨⟨reply, db₁⟩, h₁, h⟩ := bind_eq_ok.1 h
    obtain ⟨⟨rest, db₂⟩, h₂, h⟩ := bind_eq_ok.1 h
    cases h
    exact (pqReapOne_frame hg h₁).trans (ih (hg.of_reach (pqReapOne_reach hg h₁)) h₂)

/-- Only requests and finishes write a head. -/
theorem Call.exec_frame {call : Call} {answer : Answer} (hrequest : ∀ a, call ≠ .enqueue a)
    (hfinish : ∀ env job token uri sha, call ≠ .finalize env job token uri sha)
    (h : call.exec db clock = .ok (answer, db')) : Frame db db' := by
  cases call with
  | enqueue a => exact absurd rfl (hrequest a)
  | finalize env job token uri sha => exact absurd rfl (hfinish env job token uri sha)
  | claim env priority owner attempt lease =>
    obtain ⟨reply, -, h⟩ := answering_eq_ok h
    rcases pqClaim_spec h with ⟨rfl, -⟩ | ⟨o, i, j, -, -, hj, -, h₁⟩
    · exact .refl _
    · exact (claimJob_effect hj h₁).2.2.1.frame
  | heartbeat env job token lease =>
    obtain ⟨reply, -, h⟩ := answering_eq_ok h
    rcases pqHeartbeat_spec h with ⟨rfl, -⟩ | ⟨j, -, -, -, -, -, he⟩
    · exact .refl _
    · exact he.frame
  | fail | release | park =>
    obtain ⟨reply, -, h⟩ := answering_eq_ok h
    exact pqEndAttempt_frame hg h
  | due env after limit =>
    cases h
    exact .refl _
  | reapOne env job =>
    obtain ⟨r, -, h⟩ := answering_eq_ok h
    exact pqReapOne_frame hg h
  | reap env after limit =>
    obtain ⟨page, -, h⟩ := answering_eq_ok h
    unfold pqReap at h
    split at h
    · cases h
    · obtain ⟨⟨replies, db₁⟩, h₁, h⟩ := bind_eq_ok.1 h
      cases h
      exact reapEach_frame hg h₁
  | cancel env job version =>
    obtain ⟨reply, -, h⟩ := answering_eq_ok h
    rcases pqCancel_spec hg h with ⟨rfl, -⟩ | ⟨j, -, -, -, -, -, he⟩
    · exact .refl _
    · exact he.frame

end Noops

/-! ## What every call keeps -/

/-- The generations requested for a product. -/
def Database.generations (db : Database) (env product : String) : List ℤ :=
  (db.requested.filter fun q => q.1 = env ∧ q.2.1 = product).map (·.2.2.1)

theorem Database.runsOf_generations (db : Database) (env product : String) :
    (db.runsOf env product).map (·.requestedGeneration) = db.generations env product := by
  simp only [runsOf, Database.generations, requested, List.filter_map,
    List.map_map]
  rfl

/-- A head and the run that its pointer names. -/
def Published (db : Database) (kh : String × String) (h : HeadRow) : Prop :=
  h.pointer = (none, 0, none) ∨ ∃ r, db.runs.find (kh.1, r.runId) = some r ∧
    r.productKey = kh.2 ∧ r.state = .succeeded ∧
      h.pointer = (some r.runId, r.requestedGeneration, r.outputSha256)

/-- The heads agree with the requests and with the runs that succeeded. -/
structure PointersSound (db : Database) : Prop where
  generations : ∀ env product, ∃ n : ℕ,
    db.generations env product = (List.range' 1 n).map (fun i : ℕ => (i : ℤ)) ∧
      (db.heads.find (env, product) = none → n = 0) ∧
      ∀ h, db.heads.find (env, product) = some h → h.requestedGeneration = n
  desired : ∀ kh h, db.heads.find kh = some h → h.requestedGeneration = 0 ∨
    ∃ id, h.desiredRunId = some id ∧ (kh.1, kh.2, h.requestedGeneration, id) ∈ db.requested
  published : ∀ kh h, db.heads.find kh = some h →
    h.publishedGeneration ≤ h.requestedGeneration ∧ Published db kh h

theorem Frame.published {kh : String × String} {h : HeadRow} (hf : Frame db db')
    (hp : Published db kh h) : Published db' kh h := by
  rcases hp with hnone | ⟨r, hr, hproduct, hstate, hpointer⟩
  · exact .inl hnone
  · exact .inr ⟨r, hf.ended _ _ hr (by simp [hstate]), hproduct, hstate, hpointer⟩

theorem PointersSound.frame (hp : PointersSound db) (hf : Frame db db') : PointersSound db' where
  generations env product := by
    rw [Database.generations, hf.requested, hf.heads]
    exact hp.generations env product
  desired := by
    rw [hf.requested, hf.heads]
    exact hp.desired
  published kh h hh := by
    rw [hf.heads] at hh
    exact ⟨(hp.published kh h hh).1, hf.published (hp.published kh h hh).2⟩

theorem PointersSound.enqueue {a : Admission} {x : HeadRow} (hp : PointersSound db)
    (he : Enqueued db db' clock a x) : PointersSound db' := by
  have hx : x.requestedGeneration = 0 ∧ x.pointer = (none, 0, none) ∧
      db.heads.find (a.env, a.productKey) = none ∨
      db.heads.find (a.env, a.productKey) = some x := by
    rcases he.head with h | ⟨h, rfl⟩
    · exact .inr h
    · exact .inl ⟨rfl, rfl, h⟩
  have hruns : ∀ kr r, db.runs.find kr = some r → db'.runs.find kr = some r := by
    intro kr r hr
    rw [he.find_run, if_neg, hr]
    rintro rfl
    rw [he.run_fresh] at hr
    cases hr
  have hframe : ∀ kh h, Published db kh h → Published db' kh h := by
    rintro kh h (hnone | ⟨r, hr, hrest⟩)
    · exact .inl hnone
    · exact .inr ⟨r, hruns _ _ hr, hrest⟩
  refine ⟨fun env product => ?_, fun kh h hh => ?_, fun kh h hh => ?_⟩
  · obtain ⟨n, hgens, hnone, hsome⟩ := hp.generations env product
    rw [Database.generations, he.requested, filter_append, map_append, he.heads]
    by_cases hk : (env, product) = (a.env, a.productKey)
    · obtain ⟨rfl, rfl⟩ := Prod.mk.inj hk
      have hn : x.requestedGeneration = n := by
        rcases hx with ⟨h0, -, hf⟩ | hf
        · rw [h0, hnone hf]
          rfl
        · exact hsome x hf
      refine ⟨n + 1, ?_, by simp, fun h hh => ?_⟩
      · rw [← Database.generations, hgens, range'_concat, map_append, hn]
        simp
        omega
      · rw [if_pos rfl] at hh
        rw [← Option.some.inj hh]
        show x.requestedGeneration + 1 = _
        rw [hn]
        push_cast
        rfl
    · have hne : ¬(a.env = env ∧ a.productKey = product) := by
        rintro ⟨rfl, rfl⟩
        exact hk rfl
      refine ⟨n, ?_, ?_, ?_⟩
      · rw [← Database.generations, hgens]
        simp [hne]
      · rw [if_neg hk]
        exact hnone
      · rw [if_neg hk]
        exact hsome
  · rw [he.heads] at hh
    rw [he.requested]
    split at hh
    · next hk =>
      refine .inr ⟨a.runId, ?_, ?_⟩
      · rw [← Option.some.inj hh]
        rfl
      · rw [← Option.some.inj hh, hk]
        simp [HeadRow.request]
    · exact (hp.desired kh h hh).imp_right fun h =>
        h.imp fun _ => And.imp_right (mem_append_left _)
  · rw [he.heads] at hh
    split at hh
    · next hk =>
      rw [← Option.some.inj hh, hk]
      rcases hx with ⟨h0, hempty, -⟩ | hf
      · have hpub : x.publishedGeneration = 0 := congrArg (·.2.1) hempty
        refine ⟨?_, .inl hempty⟩
        show x.publishedGeneration ≤ x.requestedGeneration + 1
        omega
      · obtain ⟨hle, hpub⟩ := hp.published _ x hf
        refine ⟨?_, hframe _ _ hpub⟩
        show x.publishedGeneration ≤ x.requestedGeneration + 1
        omega
    · exact ⟨(hp.published kh h hh).1, hframe kh h (hp.published kh h hh).2⟩

theorem PointersSound.publish {h : HeadRow} {heads : Table HeadRow}
    (hp : PointersSound db) (hh : db.heads.find (r.env, r.productKey) = some h)
    (hr : db.runs.find (r.env, r.runId) = some r) (hstate : r.state = .succeeded)
    (hgen : h.requestedGeneration = r.requestedGeneration)
    (hheads : ∀ kh, heads.find kh = if kh = (r.env, r.productKey) then
    some (h.publish r r.outputSha256) else db.heads.find kh) :
    PointersSound { db with heads } := by
  have hcases : ∀ kh h', heads.find kh = some h' →
      kh = (r.env, r.productKey) ∧ h' = h.publish r r.outputSha256 ∨ db.heads.find kh = some h' := by
    intro kh h' hh'
    rw [hheads] at hh'
    split at hh'
    · next hk => exact .inl ⟨hk, (Option.some.inj hh').symm⟩
    · exact .inr hh'
  refine ⟨fun env product => ?_, fun kh h' hh' => ?_, fun kh h' hh' => ?_⟩
  · obtain ⟨n, hgens, hnone, hsome⟩ := hp.generations env product
    refine ⟨n, hgens, fun hn => ?_, fun h' hh' => ?_⟩
    · refine hnone ?_
      simp only [hheads] at hn
      split at hn
      · cases hn
      · exact hn
    · rcases hcases _ h' hh' with ⟨hk, rfl⟩ | hold
      · exact hsome h (hk ▸ hh)
      · exact hsome h' hold
  · rcases hcases kh h' hh' with ⟨rfl, rfl⟩ | hold
    · exact hp.desired _ h hh
    · exact hp.desired kh h' hold
  · rcases hcases kh h' hh' with ⟨rfl, rfl⟩ | hold
    · refine ⟨?_, .inr ⟨r, hr, rfl, hstate, rfl⟩⟩
      show r.requestedGeneration ≤ h.requestedGeneration
      rw [hgen]
    · exact hp.published kh h' hold

/-! ## A finalize that succeeds -/

theorem Database.mem_runsOf {env product : String} :
    r ∈ db.runsOf env product ↔ r ∈ db.runs.rows ∧ r.env = env ∧ r.productKey = product := by
  simp [runsOf]

/-- A run is the newest of its product if and only if the head lets it publish. -/
theorem publishAllowed_iff (hp : PointersSound db) (hr : r ∈ db.runs.rows) :
    ∃ h, db.heads.find (r.env, r.productKey) = some h ∧
      (pqPublishAllowed h r = true ↔ Newest db r) ∧
      (Newest db r → h.requestedGeneration = r.requestedGeneration) := by
  obtain ⟨n, hgens, hnone, hsome⟩ := hp.generations r.env r.productKey
  have hmem : r ∈ db.runsOf r.env r.productKey := mem_runsOf.2 ⟨hr, rfl, rfl⟩
  have hbounds : ∀ r' ∈ db.runsOf r.env r.productKey,
      1 ≤ r'.requestedGeneration ∧ r'.requestedGeneration ≤ n := by
    intro r' hr'
    have hg := mem_map_of_mem (f := (·.requestedGeneration)) hr'
    rw [db.runsOf_generations, hgens] at hg
    obtain ⟨i, hi, heq⟩ := mem_map.1 hg
    rw [mem_range'_1] at hi
    omega
  cases hh : db.heads.find (r.env, r.productKey) with
  | none =>
    have hn := hnone hh
    have hb := hbounds r hmem
    omega
  | some h =>
    have hreq := hsome h hh
    obtain ⟨hone, hle⟩ := hbounds r hmem
    have hnewest : Newest db r ↔ r.requestedGeneration = n := by
      constructor
      · intro hnew
        have hlast : (n : ℤ) ∈ db.generations r.env r.productKey := by
          rw [hgens]
          exact mem_map_of_mem (mem_range'_1.2 ⟨by omega, by omega⟩)
        rw [← db.runsOf_generations] at hlast
        obtain ⟨r', hr', hgen⟩ := mem_map.1 hlast
        have hmax := hnew r' hr'
        omega
      · intro heq r' hr'
        have hb := hbounds r' hr'
        omega
    refine ⟨h, rfl, ?_, fun hnew => by rw [hreq, hnewest.1 hnew]⟩
    rw [hnewest]
    simp only [pqPublishAllowed, Bool.and_eq_true, decide_eq_true_eq]
    constructor
    · rintro ⟨⟨-, hgen⟩, -⟩
      omega
    · intro heq
      have hgen : h.requestedGeneration = r.requestedGeneration := by omega
      refine ⟨⟨?_, hgen⟩, ?_⟩
      · rcases hp.desired _ h hh with h0 | ⟨id, hid, hreqd⟩
        · omega
        · obtain ⟨r', hr', heq'⟩ := mem_map.1 hreqd
          simp only [Prod.mk.injEq] at heq'
          have hunique : Row.unique r' = Row.unique r := by
            show some (r'.env, r'.productKey, r'.requestedGeneration) =
              some (r.env, r.productKey, r.requestedGeneration)
            rw [heq'.1, heq'.2.1, heq'.2.2.1, hgen]
          rw [hid, ← heq'.2.2.2, Table.unique_inj hr' hr hunique rfl]
      · have hpub := (hp.published _ h hh).1
        omega

/-- The run of a job, by the job's row. -/
theorem Database.view_run (hj : (db.view k).job = some j) :
    (db.view k).run = db.runs.find (k.1, j.runId) := by
  have henv : j.env = k.1 := congrArg Prod.fst (key_of_view hj)
  show ((db.jobs.find k).bind fun j => db.runs.find (j.env, j.runId)) = _
  rw [show db.jobs.find k = some j from hj, bind_some, henv]

/-- A finalize that the fence lets through publishes exactly the newest run. -/
theorem finishJob_heads {sha : Option String}
    (hg : Jobs.Good {.noop} db.view) (hp : PointersSound db)
    (hj : (db.view (env, job)).job = some j) (hr : db.runs.find (env, j.runId) = some r)
    (howns : pqOwns j token (clock.read 0) = true)
    (hfinish : finishJob db clock j r (db.heads.find (env, r.productKey)) token.attempt sha =
    .ok (reply, db')) :
    PointersSound db' ∧ reply.outcome = .state .succeeded ∧
      ∃ h, db.heads.find (env, r.productKey) = some h ∧
        (Newest db r → r.requestedGeneration = h.requestedGeneration ∧
          ∀ kh, db'.heads.find kh = if kh = (env, r.productKey) then some (h.publish r sha)
            else db.heads.find kh) ∧
        (¬ Newest db r → db'.heads = db.heads) := by
  obtain ⟨hrunning, -, ⟨attempt, ha, hta⟩, -⟩ := pqOwns_iff.1 howns
  obtain ⟨hrmem, hrkey⟩ := Table.find_eq_some.1 hr
  obtain ⟨renv, rid⟩ : r.env = env ∧ r.runId = j.runId := Prod.mk.inj hrkey
  obtain ⟨db₁, moved, hpublish, -, hout, -, he⟩ :=
    finishJob_effect hg (key_eq hj) hrunning (hta.trans ha.symm) rid hfinish
  have hp₁ := hp.frame he.frame
  have hkey : j.key = (env, job) := key_of_view hj
  -- The run has succeeded before its head moves.
  have hr₁ : db₁.runs.find (env, r.runId) =
      some { r with state := .succeeded, outputSha256 := sha } := by
    have hview := he.view_self
    have hj₁ : (db₁.view j.key).job = some (j.succeeded clock j.attemptId sha) := by
      rw [hview]
      simp [JobView.setRun, JobView.setState, JobView.setAttempt, key_eq hj]
    have hrun₁ := view_run hj₁
    have hrun : (db.view j.key).run = some r := by rw [view_run (key_eq hj), hkey, hr]
    rw [rid, ← show (j.key).1 = env by rw [hkey]]
    refine hrun₁.symm.trans ?_
    rw [hview]
    simp [JobView.setRun, JobView.setState, JobView.setAttempt, hrun, rid]
  obtain ⟨h, hh, hallowed, hnewgen⟩ := publishAllowed_iff hp hrmem
  rw [renv] at hh
  obtain ⟨hmoved, heads, rfl, hstay, hheads⟩ := publish_spec hpublish
  rw [hh, any_some] at hmoved
  have hh₁ : db₁.heads.find (r.env, r.productKey) = some h := by rw [he.heads, renv, hh]
  cases hm : moved with
  | false =>
    have hnot : ¬ Newest db r := by
      intro hnew
      rw [hallowed.2 hnew, hm] at hmoved
      cases hmoved
    have hsame : heads = db₁.heads := hstay hm
    subst hsame
    exact ⟨hp₁, hout, h, hh, fun hnew => absurd hnew hnot, fun _ => he.heads⟩
  | true =>
    have hnew : Newest db r := hallowed.1 (hmoved.symm.trans hm)
    have hset := hheads h hh₁ hm
    refine ⟨?_, hout, h, hh, fun _ => ⟨(hnewgen hnew).symm, fun kh => ?_⟩,
      fun hnot => absurd hnew hnot⟩
    · refine hp₁.publish (r := { r with state := .succeeded, outputSha256 := sha }) hh₁ ?_ rfl
        (hnewgen hnew) hset
      rw [← renv] at hr₁
      exact hr₁
    · show heads.find kh = _
      rw [hset, renv, he.heads]

/-! ## The steps -/

theorem Finalizes.unique {r r' : RunRow} (h : Finalizes db e r) (h' : Finalizes db e r') : r = r' := by
  obtain ⟨job, token, uri, sha, reply, j, hcall, -, -, hj, hr⟩ := h
  obtain ⟨job', token', uri', sha', reply', j', hcall', -, -, hj', hr'⟩ := h'
  rw [hcall] at hcall'
  injection hcall' with henv hjob
  rw [← henv, ← hjob, hj] at hj'
  obtain rfl := Option.some.inj hj'
  rw [← henv, hr] at hr'
  exact Option.some.inj hr'

/-- A step that writes no head. -/
theorem HeadsAdvance.same (hheads : db'.heads = db.heads)
    (hno : ∀ r, Finalizes db e r → ¬ Newest db r) : HeadsAdvance db e db' := by
  intro kh h hh
  rw [hheads]
  exact ⟨h, hh, le_refl _, le_refl _,
    ⟨fun hne => absurd rfl hne, fun ⟨r, hr, _, hnew⟩ => absurd hnew (hno r hr)⟩,
    fun r hr _ hnew => absurd hnew (hno r hr)⟩

theorem Step.heads (hg : Jobs.Good {.noop} db.view) (hp : PointersSound db) (hs : Step db e db') :
    HeadsAdvance db e db' ∧ PointersSound db' := by
  obtain ⟨clock, call, answer⟩ := e
  rcases hs with ⟨a, rfl, h⟩ | ⟨error, rfl, h, rfl⟩
  case inr =>
    refine ⟨.same rfl fun r hr => ?_, hp⟩
    obtain ⟨_, _, _, _, _, _, -, hanswer, -⟩ := hr
    cases hanswer
  simp only at h
  by_cases hrequest : ∃ adm, call = .enqueue adm
  · obtain ⟨adm, rfl⟩ := hrequest
    have hno : ∀ r, ¬ Finalizes db ⟨clock, .enqueue adm, .ok a⟩ r := by
      rintro r ⟨_, _, _, _, _, _, hcall, -⟩
      cases hcall
    obtain ⟨reply, -, h⟩ := answering_eq_ok h
    rcases pqEnqueue_spec h with ⟨-, -, rfl, -⟩ | ⟨-, -, x, he⟩
    · exact ⟨.same rfl fun r hr => absurd hr (hno r), hp⟩
    · refine ⟨fun kh h hh => ?_, hp.enqueue he⟩
      rw [he.heads]
      split
      · next hk =>
        have hx : h = x := by
          rcases he.head with hx | ⟨hx, -⟩
          · rw [← hk, hh] at hx
            exact Option.some.inj hx
          · rw [← hk, hh] at hx
            cases hx
        subst hx
        refine ⟨_, rfl, ?_, le_refl _, ⟨fun hne => absurd rfl hne, fun h =>
          h.elim fun r hr => absurd hr.1 (hno r)⟩, fun r hr => absurd hr (hno r)⟩
        show h.requestedGeneration ≤ h.requestedGeneration + 1
        omega
      · exact ⟨h, hh, le_refl _, le_refl _, ⟨fun hne => absurd rfl hne, fun h =>
          h.elim fun r hr => absurd hr.1 (hno r)⟩, fun r hr => absurd hr (hno r)⟩
  by_cases hfinish : ∃ env job token uri sha, call = .finalize env job token uri sha
  case neg =>
    have hf := Call.exec_frame hg (fun adm hc => hrequest ⟨adm, hc⟩)
      (fun env job token uri sha hc => hfinish ⟨env, job, token, uri, sha, hc⟩) h
    refine ⟨.same hf.heads fun r hr => ?_, hp.frame hf⟩
    obtain ⟨job, token, uri, sha, -, -, hcall, -⟩ := hr
    exact absurd ⟨_, job, token, uri, sha, hcall⟩ hfinish
  obtain ⟨env, job, token, uri, sha, rfl⟩ := hfinish
  obtain ⟨reply, rfl, hx⟩ := answering_eq_ok h
  -- An answer that is not a success writes no head.
  have hfail : reply.outcome ≠ .state .succeeded →
      ∀ r, ¬ Finalizes db ⟨clock, .finalize env job token uri sha, .ok (.reply reply)⟩ r := by
    rintro hne r ⟨_, _, _, _, _, _, -, hanswer, hout, -⟩
    cases hanswer
    exact hne hout
  rcases pqFinalize_spec hx with ⟨rfl, hout, -⟩ | ⟨j, r, hj, hr, ⟨rfl, -, hout⟩ | ⟨howns, hcases⟩⟩
  · exact ⟨.same rfl fun r hr => absurd hr (hfail (by simp [hout]) r), hp⟩
  · exact ⟨.same rfl fun r hr => absurd hr (hfail (by rcases hout with h | h <;> simp [h]) r), hp⟩
  rcases hcases with ⟨rfl, hout⟩ | ⟨hsha, hwrites⟩
  · exact ⟨.same rfl fun r hr => absurd hr (hfail (by simp [hout]) r), hp⟩
  obtain ⟨hp', hout, h₀, hh₀, hnew, hold⟩ := finishJob_heads hg hp hj hr howns hwrites
  have renv : r.env = env := congrArg Prod.fst (Table.find_eq_some.1 hr).2
  have hthis : Finalizes db ⟨clock, .finalize env job token uri sha, .ok (.reply reply)⟩ r :=
    ⟨job, token, uri, sha, reply, j, by rw [renv], rfl, hout, by rw [renv]; exact hj,
      by rw [renv]; exact hr⟩
  refine ⟨?_, hp'⟩
  by_cases hn : Newest db r
  case neg => exact .same (hold hn) fun r' hr' => hthis.unique hr' ▸ hn
  obtain ⟨hgen, hset⟩ := hnew hn
  intro kh h hh
  rw [hset]
  split
  · next hk =>
    rw [hk, hh₀] at hh
    obtain rfl := Option.some.inj hh
    refine ⟨_, rfl, le_refl _, ?_, ⟨fun _ => ⟨r, hthis, by rw [renv, hk], hn⟩, fun _ heq => ?_⟩,
      fun r' hr' _ _ => ?_⟩
    · show h₀.publishedGeneration ≤ r.requestedGeneration
      rw [hgen]
      exact (hp.published _ h₀ hh₀).1
    · -- The run was pending, so the pointer did not name it.
      rcases (hp.published _ h₀ hh₀).2 with hnone | ⟨r', hr', -, hstate', hpointer⟩
      · rw [hnone] at heq
        cases heq
      · rw [hpointer] at heq
        have hid : r.runId = r'.runId := Option.some.inj (congrArg Prod.fst heq)
        have hrid : r.runId = j.runId := congrArg Prod.snd (Table.find_eq_some.1 hr).2
        rw [← hid, hrid] at hr'
        rw [hr] at hr'
        obtain rfl := Option.some.inj hr'
        have hpending := hg.run_pending hj (by rw [(pqOwns_iff.1 howns).1]; rfl) r
          (by rw [view_run hj]; exact hr)
        rw [hpending] at hstate'
        cases hstate'
    · rw [← hthis.unique hr']
      show (some r.runId, r.requestedGeneration, sha) = _
      rw [hsha]
  · next hk =>
    refine ⟨h, hh, le_refl _, le_refl _, ⟨fun hne => absurd rfl hne, ?_⟩, fun r' hr' hkey => ?_⟩
    · rintro ⟨r', hr', hkey, -⟩
      rw [← hthis.unique hr', renv] at hkey
      exact absurd hkey.symm hk
    · rw [← hthis.unique hr', renv] at hkey
      exact absurd hkey.symm hk

/-! ## The trigger -/

/-- The computation is not stopped by `pq_no_regression`. -/
def Unstopped {α : Type} (x : Except DbError α) : Prop := x ≠ .error .pointerRegression

namespace Unstopped

variable {α β : Type}

theorem ok (a : α) : Unstopped (.ok a) := nofun

theorem raised (message : String) : Unstopped (α := α) (.error (.raised message)) := nofun

theorem bind {x : Except DbError α} {f : α → Except DbError β} (hx : Unstopped x)
    (hf : ∀ a, x = .ok a → Unstopped (f a)) : Unstopped (x >>= f) := by
  cases x with
  | error e => exact fun h => hx (congrArg _ (Except.error.inj h))
  | ok a => exact hf a rfl

theorem write {ρ κ υ : Type} [Row ρ κ υ] {x : Except Violation (Table ρ)}
    {set : Table ρ → Database} : Unstopped (Polis.Queue.write x set) := by
  cases x with
  | error | ok => exact nofun

theorem answering {x : Except DbError (After α)} {f : α → Answer} (hx : Unstopped x) :
    Unstopped (Polis.Queue.answering f x) := by
  cases x with
  | error e => exact fun h => hx (congrArg _ (Except.error.inj h))
  | ok p => exact nofun

theorem updateJobState {now : Time} {f : JobRow → JobRow} :
    Unstopped (db.updateJobState k now f) := by
  refine .bind .write fun db₁ _ => ?_
  split
  · exact .ok _
  · split
    · exact .ok _
    · exact .write

theorem updateAttemptOf {id : Option Uuid} {f : AttemptRow → AttemptRow} :
    Unstopped (updateAttemptOf db env id f) := by
  cases id with
  | none => exact .ok _
  | some i => exact .write

theorem killRun : Unstopped (killRun db j) := by
  unfold Polis.Queue.killRun
  split
  · exact .write
  · exact .ok _

theorem pqTerminateAttempt {state : JobState} {outcome : AttemptOutcome} {immediate : Bool} :
    Unstopped (pqTerminateAttempt db clock j state outcome error immediate) :=
  .bind .updateAttemptOf fun _ _ => .bind .updateJobState fun _ _ => .bind .killRun fun _ _ => .ok _

theorem pqEndAttempt {action : EndAction} :
    Unstopped (pqEndAttempt db clock env job token action error) := by
  unfold Polis.Queue.pqEndAttempt
  split
  · exact .ok _
  · split
    · exact .ok _
    · split
      · exact .raised _
      · exact .bind .pqTerminateAttempt fun _ _ => .ok _

theorem reapJob {now : Time} {f : JobRow → JobRow} : Unstopped (reapJob db j now f) :=
  .bind .updateJobState fun _ _ => .bind .killRun fun _ _ => .ok _

theorem pqReapOne : Unstopped (pqReapOne db clock env job) := by
  unfold Polis.Queue.pqReapOne
  split
  · exact .ok _
  · split
    · exact .bind .pqTerminateAttempt fun _ _ => .ok _
    · split
      · exact .reapJob
      · split
        · exact .reapJob
        · exact .ok _

theorem reapEach {ids : List Uuid} :
    Unstopped (reapEach (Polis.Queue.pqReapOne · · env ·) db clock ids) := by
  induction ids generalizing db clock with
  | nil => exact .ok _
  | cons id ids ih => exact .bind .pqReapOne fun _ _ => .bind ih fun _ _ => .ok _

theorem updateHead {kh : String × String} {f : HeadRow → HeadRow}
    (h : ∀ x, db.heads.find kh = some x → x.requestedGeneration ≤ (f x).requestedGeneration ∧
      x.publishedGeneration ≤ (f x).publishedGeneration) : Unstopped (db.updateHead kh f) := by
  unfold Database.updateHead
  split
  · exact .ok _
  · next x hx =>
    obtain ⟨hreq, hpub⟩ := h x hx
    rw [if_neg (by omega)]
    exact .write

theorem pqEnqueue {a : Admission} : Unstopped (pqEnqueue db clock a) := by
  unfold Polis.Queue.pqEnqueue
  split
  · exact .raised _
  · split
    · split
      · exact .ok _
      · rintro ⟨⟩
    · refine .bind .write fun db₁ h₁ => .bind ?_ fun db₂ h₂ => ?_
      · unfold Admission.reserveHead
        split
        · exact .ok _
        · exact .write
      · split
        · exact .raised _
        · next x hx =>
          split
          · exact .raised _
          · refine .bind .write fun db₃ h₃ => .bind .write fun db₄ h₄ =>
              .bind (.updateHead fun y hy => ?_) fun _ _ => .ok _
            obtain ⟨runs, -, rfl⟩ := write_eq_ok.1 h₃
            obtain ⟨jobs, -, rfl⟩ := write_eq_ok.1 h₄
            obtain rfl := Option.some.inj (hx.symm.trans hy)
            refine ⟨?_, le_refl _⟩
            show x.requestedGeneration ≤ x.requestedGeneration + 1
            omega

/-- The policy lets no run publish that is older than what the head publishes. -/
theorem publish {sha : Option String} {db₀ : Database} (hheads : db.heads = db₀.heads) :
    Unstopped (publish db (db₀.heads.find (r.env, r.productKey)) r sha) := by
  unfold Polis.Queue.publish
  split
  · next hallowed =>
    refine .bind (.updateHead fun x hx => ⟨le_refl _, ?_⟩) fun _ _ => .ok _
    rw [hheads] at hx
    rw [hx, any_some, pqPublishAllowed, Bool.and_eq_true] at hallowed
    exact of_decide_eq_true hallowed.2
  · exact .ok _

end Unstopped

theorem pqFinalize_unstopped {uri sha : Option String} :
    Unstopped (pqFinalize db clock env job token uri sha) := by
  unfold pqFinalize pqLock
  split
  · exact .ok _
  · next j hj =>
    split
    · exact nofun
    · next r hr =>
      have renv : r.env = env := congrArg Prod.fst (Table.find_eq_some.1 hr).2
      dsimp only
      split
      · split
        · exact .ok _
        · exact .ok _
      · split
        · exact .ok _
        · split
          · exact .ok _
          · refine .bind .updateAttemptOf fun db₁ h₁ => .bind .updateJobState fun db₂ h₂ =>
              .bind .write fun db₃ h₃ => .bind ?_ fun _ _ => .ok _
            have hheads : db₃.heads = db.heads := by
              obtain ⟨runs, -, rfl⟩ := write_eq_ok.1 h₃
              obtain ⟨jobs, delphiJobs, rfl⟩ := updateJobState_tables h₂
              cases hid : token.attempt with
              | none =>
                rw [hid] at h₁
                cases h₁
                rfl
              | some id =>
                rw [hid] at h₁
                obtain ⟨attempts, -, rfl⟩ := write_eq_ok.1 h₁
                rfl
            rw [← renv]
            exact .publish hheads

theorem Call.exec_unstopped (call : Call) : Unstopped (call.exec db clock) := by
  cases call with
  | enqueue a => exact .answering .pqEnqueue
  | claim env priority owner attempt lease =>
    refine .answering ?_
    unfold pqClaim
    split
    · split
      · exact .raised _
      · split
        · exact .ok _
        · exact .bind .updateJobState fun _ _ => .bind .write fun _ _ => .ok _
    · exact .raised _
  | heartbeat env job token lease =>
    refine .answering ?_
    unfold pqHeartbeat
    split
    · exact .raised _
    · split
      · exact .ok _
      · split
        · exact .ok _
        · exact .bind .write fun _ _ => .ok _
  | finalize env job token uri sha => exact .answering pqFinalize_unstopped
  | fail | release | park => exact .answering .pqEndAttempt
  | due env after limit => exact .ok _
  | reapOne env job => exact .answering .pqReapOne
  | reap env after limit =>
    refine .answering ?_
    unfold pqReap
    split
    · exact .raised _
    · exact .bind .reapEach fun _ _ => .ok _
  | cancel env job version =>
    refine .answering ?_
    unfold pqCancel
    split
    · exact .ok _
    · split
      · exact .ok _
      · split
        · exact .ok _
        · exact .bind .updateAttemptOf fun _ _ => .bind .updateJobState fun _ _ =>
            .bind .write fun _ _ => .ok _

/-! ## Repeated finishes -/

/-- The attempt belongs to a job that has succeeded. -/
private def Finished (db : Database) (p : String × Option Uuid) : Prop :=
  ∃ k j a, k.1 = p.1 ∧ (db.view k).job = some j ∧ j.state = .succeeded ∧
    a ∈ (db.view k).attempts ∧ some a.attemptId = p.2

private theorem Finished.follows {p : String × Option Uuid} (h : Finished db p)
    (hf : ∀ k, (db.view k).Follows (db'.view k)) : Finished db' p := by
  obtain ⟨k, j, a, hk, hj, hstate, ha, hid⟩ := h
  obtain ⟨j', hj', hfj⟩ := (hf k).job j hj
  obtain ⟨a', ha', hfa⟩ := (hf k).attempts a ha
  obtain rfl := hfj.terminal (by rw [hstate]; rfl)
  exact ⟨k, j', a', hk, hj', hstate, ha', by rw [hfa.2.1, hid]⟩

private theorem finalized_new {p : String × Option Uuid}
    (hg : Jobs.Good {.noop} db.view) (hs : Step db e db') (hfinalized : e.finalized = some p) :
    Finished db' p := by
  have hfollows := (hs.reach hg).follows hg
  obtain ⟨clock, call, answer⟩ := e
  unfold Event.finalized at hfinalized
  split at hfinalized
  case h_2 => cases hfinalized
  next env job token uri sha reply hcall hanswer =>
  obtain rfl : call = _ := hcall
  obtain rfl : answer = _ := hanswer
  split at hfinalized
  case isFalse => cases hfinalized
  next hout =>
  obtain rfl := Option.some.inj hfinalized
  rcases hs with ⟨a, ha, h⟩ | ⟨error, he, -⟩
  case inr => cases he
  cases ha
  obtain ⟨reply', hreply, h⟩ := answering_eq_ok h
  cases hreply
  rcases pqFinalize_spec h with ⟨-, hfenced, -⟩ | ⟨j, r, hj, hr, ⟨-, -, hback⟩ | ⟨howns, hcases⟩⟩
  · rw [hout] at hfenced
    cases hfenced
  · rw [hout] at hback
    rcases hback with hback | hback <;> cases hback
  rcases hcases with ⟨-, hinvalid⟩ | ⟨-, hwrites⟩
  · rw [hout] at hinvalid
    cases hinvalid
  obtain ⟨hrunning, -, ⟨id, hid, hta⟩, -⟩ := pqOwns_iff.1 howns
  have hrid : r.runId = j.runId := congrArg Prod.snd (Table.find_eq_some.1 hr).2
  obtain ⟨db₁, moved, hpublish, -, -, -, heff⟩ :=
    finishJob_effect hg (key_eq hj) hrunning (hta.trans hid.symm) hrid hwrites
  obtain ⟨-, heads, rfl, -⟩ := publish_spec hpublish
  obtain ⟨b, hb, hbid, -⟩ := ((hg.ok _).sound j hj).held id hid
  obtain ⟨b', hb', hfb⟩ := (hfollows (env, job)).attempts b hb
  refine ⟨(env, job), j.succeeded clock j.attemptId sha, b', rfl, ?_, rfl, hb', ?_⟩
  · have hview := heff.view_self
    rw [show j.key = (env, job) from key_of_view hj] at hview
    show (db₁.view (env, job)).job = _
    rw [hview]
    simp [JobView.setRun, JobView.setState, JobView.setAttempt, hj]
  · rw [hfb.2.1, hbid, hta]

private theorem finished_all {conversations : List ℤ} {es : List Event}
    (h : Run Step (.fresh conversations) es db) :
    ∀ p ∈ es.filterMap Event.finalized, Finished db p := by
  have hinv : Jobs.Good {.noop} db.view ∧ ∀ p ∈ es.filterMap Event.finalized, Finished db p := by
    refine h.invariant (fun es db => Jobs.Good {.noop} db.view ∧
      ∀ p ∈ es.filterMap Event.finalized, Finished db p) ⟨fresh_good conversations, by simp⟩ ?_
    intro es db e db' _ hinv hs
    obtain ⟨hg, hall⟩ := hinv
    refine ⟨hg.of_reach (hs.reach hg), fun p hp => ?_⟩
    rw [filterMap_append, mem_append] at hp
    rcases hp with hp | hp
    · exact (hall p hp).follows ((hs.reach hg).follows hg)
    · exact finalized_new hg hs (by simpa using hp)
  exact hinv.2

/-- An attempt of a job that has succeeded holds no job. -/
private theorem repeats_nothing {es : List Event} (hg : Jobs.Good {.noop} db.view)
    (hall : ∀ p ∈ es.filterMap Event.finalized, Finished db p) (hs : Step db e db') :
    RepeatsNothing es db e db' := by
  intro env job token uri sha hcall hmem
  obtain ⟨clock, call, answer⟩ := e
  obtain rfl : call = _ := hcall
  rcases hs with ⟨a, rfl, h⟩ | ⟨error, -, -, rfl⟩
  case inr => rfl
  obtain ⟨reply, -, h⟩ := answering_eq_ok h
  rcases pqFinalize_spec h with ⟨rfl, -⟩ | ⟨j, r, hj, -, ⟨rfl, -⟩ | ⟨howns, -⟩⟩
  · rfl
  · rfl
  obtain ⟨hrunning, -, ⟨id, hid, hta⟩, -⟩ := pqOwns_iff.1 howns
  obtain ⟨b, hb, hbid, -⟩ := ((hg.ok _).sound j hj).held id hid
  obtain ⟨k, i, c, hk, hi, hstate, hc, hcid⟩ := hall _ hmem
  have hsame : c = b := by
    have hfc := find_attempt hc
    have hfb := find_attempt hb
    have hcid' : c.attemptId = b.attemptId := by
      rw [hbid]
      exact Option.some.inj (hcid.trans hta)
    rw [show k.1 = env from hk, hcid', hfb] at hfc
    exact (Option.some.inj hfc).symm
  have hkey : k = (env, job) := by
    rw [← (mem_attempts.1 hc).2, ← (mem_attempts.1 hb).2, hsame]
  rw [hkey, hj] at hi
  obtain rfl := Option.some.inj hi
  rw [hrunning] at hstate
  cases hstate

/-! ## Every run -/

theorem fresh_pointers (conversations : List ℤ) : PointersSound (.fresh conversations) where
  generations _ _ := ⟨0, rfl, fun _ => rfl, fun _ h => (nomatch h)⟩
  desired _ _ h := nomatch h
  published _ _ h := nomatch h

theorem PointersSound.product (hp : PointersSound db) (env product : String) :
    ProductConsistent db env product where
  generations := by
    obtain ⟨n, hgens, -, hsome⟩ := hp.generations env product
    exact ⟨n, (db.runsOf_generations env product).trans hgens, hsome⟩
  published h hh := by
    obtain ⟨hle, hpub⟩ := hp.published _ h hh
    obtain ⟨henv, hproduct⟩ : h.env = env ∧ h.productKey = product :=
      Prod.mk.inj (Table.find_eq_some.1 hh).2
    refine ⟨hle, hpub.imp_right ?_⟩
    rintro ⟨r, hr, hrproduct, hstate, hpointer⟩
    obtain ⟨hmem, hkey⟩ := Table.find_eq_some.1 hr
    exact ⟨r, mem_runsOf.2 ⟨hmem, (congrArg Prod.fst hkey).trans henv.symm,
      hrproduct.trans hproduct.symm⟩, hstate, hpointer⟩

/-- In every database that the calls reach, the generations of each product are 1, 2, 3 and so on, and
its pointer names a run that succeeded. Whatever call comes next, the trigger does not stop it, no
generation falls, the pointer moves exactly when the newest run succeeds, and a finalize for an attempt
that has succeeded before changes nothing. -/
theorem publication_pointer {conversations : List ℤ} {es : List Event}
    (h : Run Step (.fresh conversations) es db) :
    (∀ env product, ProductConsistent db env product) ∧
      ∀ e db', Step db e db' → e.answer ≠ .error .pointerRegression ∧ HeadsAdvance db e db' ∧
        RepeatsNothing es db e db' := by
  have hg := reachable_good h
  have hp : PointersSound db := by
    have hinv : Jobs.Good {.noop} db.view ∧ PointersSound db := by
      refine h.keeps (fun db => Jobs.Good {.noop} db.view ∧ PointersSound db)
        ⟨fresh_good conversations, fresh_pointers conversations⟩ fun db e db' hinv hs => ?_
      exact ⟨hinv.1.of_reach (hs.reach hinv.1), (hs.heads hinv.1 hinv.2).2⟩
    exact hinv.2
  refine ⟨fun env product => hp.product env product, fun e db' hs =>
    ⟨?_, (hs.heads hg hp).1, repeats_nothing hg (finished_all h) hs⟩⟩
  rcases hs with ⟨a, ha, -⟩ | ⟨error, he, hexec, -⟩
  · rw [ha]
    exact nofun
  · rw [he]
    rintro hreg
    cases hreg
    exact e.call.exec_unstopped hexec

/-- Two requests, of which the older run finishes first; the newer one is still claimed. -/
private def lateRun : List (Clock × Call) :=
  [(.still 0, .enqueue (sampleRequest "first" 10 20)),
    (.still 1, .enqueue (sampleRequest "second" 11 21)),
    (.still 2, .claim "dev" 1 (some 5) (some 6) (some 10)),
    (.still 2, .claim "dev" 1 (some 5) (some 7) (some 10)),
    (.still 3, .finalize "dev" 20 ⟨some 5, some 6, some 1⟩ (some "file://input")
      (some sampleDigest))]

/-- The newer run finishes too. -/
private def newestRun : List (Clock × Call) :=
  lateRun ++ [(.still 4, .finalize "dev" 21 ⟨some 5, some 7, some 1⟩ (some "file://input")
    (some sampleDigest))]

theorem publication_pointer_newest :
    ((∀ env product, ProductConsistent (history (.fresh [1]) lateRun).2 env product) ∧
      (history (.fresh [1]) lateRun).2.heads.rows.map HeadRow.pointer = [(none, 0, none)]) ∧
    (∀ env product, ProductConsistent (history (.fresh [1]) newestRun).2 env product) ∧
      (history (.fresh [1]) newestRun).2.heads.rows.map HeadRow.pointer =
        [(some 11, 2, some sampleDigest)] :=
  ⟨⟨(publication_pointer (history_run [1] lateRun)).1, by decide +kernel⟩,
    (publication_pointer (history_run [1] newestRun)).1, by decide +kernel⟩

end Polis.Queue
