import Polis.Common.Descending
import Polis.Delphi.GuardTheorems
import Mathlib.Data.Prod.Lex

/-!
# The poison latch

`pd_enqueue` admits no job of a product whose last three jobs died under the image that is admitted now.
The latch looks at the product when it admits, so it says nothing of jobs that are admitted side by side,
each in a scope of its own.

Reference: `server/postgres/migrations/000024_create_polis_queue_large_class.sql`.
-/

namespace Polis.Delphi

open Queue List

/-! ## The statement -/

/-- The product of a conversation in an environment. -/
structure Product where
  env : String
  zid : ℤ
  productKey : String
deriving DecidableEq, Repr

def Admission.product (a : Admission) : Product := ⟨a.env, a.zid, a.productKey⟩

/-- The runs of a product with their jobs, the latest first. -/
def runsOf (db : Database) (p : Product) : List (RunRow × JobRow) :=
  let runs := db.runs.rows.filter fun r =>
    r.env = p.env ∧ r.zid = p.zid ∧ r.productKey = p.productKey
  let jobs := runs.flatMap fun r =>
    (db.jobs.rows.filter fun j => j.env = r.env ∧ j.runId = r.runId).map fun j => (r, j)
  jobs.insertionSort fun x y => y.1.createdAt < x.1.createdAt ∨
    y.1.createdAt = x.1.createdAt ∧ y.1.runId ≤ x.1.runId

/-- Three runs or more, all dead under one image. -/
def AllDead (image : String) (l : List (RunRow × JobRow)) : Prop :=
  3 ≤ l.length ∧ ∀ x ∈ l, (x.2.state, x.1.codeImageDigest) = (.dead, image)

/-- A run of a product that a step adds. -/
def Adds (db db' : Database) (p : Product) (y : RunRow × JobRow) : Prop :=
  y ∈ runsOf db' p ∧ ∀ x ∈ runsOf db p, x.1.runId ≠ y.1.runId

/-- The runs of the product are admitted by `pd_enqueue`, each when the earlier ones have ended and at a
later time. -/
def InOrder (p : Product) (db : Database) (e : Event) (db' : Database) : Prop :=
  ∀ y, Adds db db' p y → (∃ a, e.call = .enqueue a) ∧
    ∀ x ∈ runsOf db p, x.2.state.terminal = true ∧ x.1.createdAt < y.1.createdAt

/-- The runs of the product are admitted by `pd_enqueue` to one scope, each at a later time. -/
def InScope (p : Product) (scope : String) (db : Database) (e : Event) (db' : Database) : Prop :=
  ∀ y, Adds db db' p y → (∃ a, e.call = .enqueue a ∧ a.scope = some scope) ∧
    ∀ x ∈ runsOf db p, x.1.createdAt < y.1.createdAt

variable {db db' : Database} {clock : Clock} {a : Admission} {reply : Reply} {p : Product}
  {b : Builtins} {inst : Installed}
variable {x y : RunRow × JobRow} {e : Event}
variable {scope : String}

theorem lastJobs_eq (a : Admission) (db : Database) :
    a.lastJobs db = (runsOf db a.product).take 3 := rfl

theorem poisoned_iff : a.poisoned db = true ↔
    AllDead a.codeImageDigest ((runsOf db a.product).take 3) := by
  rw [Admission.poisoned, decide_eq_true_eq, lastJobs_eq, AllDead]
  generalize hl : (runsOf db a.product).take 3 = l
  have hlen : l.length ≤ 3 := by
    rw [← hl, length_take]
    omega
  constructor
  · intro h
    have hle := length_filter_le (fun x : RunRow × JobRow => decide (x.2.state = .dead ∧
      x.1.codeImageDigest = a.codeImageDigest)) l
    have hall := length_filter_eq_length_iff.1 (le_antisymm hle (hlen.trans h))
    refine ⟨h.trans hle, fun x hx => ?_⟩
    obtain ⟨hdead, himage⟩ := of_decide_eq_true (hall x hx)
    rw [hdead, himage]
  · rintro ⟨h, hall⟩
    rw [length_filter_eq_length_iff.2]
    · exact h
    · intro x hx
      obtain ⟨hdead, himage⟩ := Prod.mk.inj (hall x hx)
      exact decide_eq_true ⟨hdead, himage⟩

/-- An admission that creates a job found the latch open. -/
theorem pdEnqueue_unpoisoned (h : pdEnqueue .largeClass db clock a = .ok (reply, db'))
    (hout : reply.outcome = .enqueued) : a.poisoned db = false := by
  have hentered : ∀ db₀ clock stage scope, a.poisoned db₀ = a.poisoned db →
      a.enterScope .largeClass db₀ clock stage scope = .ok (reply, db') → a.poisoned db = false := by
    intro db₀ clock stage scope hsame h
    unfold Admission.enterScope at h
    split at h
    · obtain ⟨j, -, -, -, ⟨-, hreply, -⟩ | ⟨-, hreply, -⟩⟩ := meetGuard_spec h <;>
        rw [hreply] at hout <;> cases hout
    · split at h
      · cases h
        cases hout
      · next hopen =>
        rw [← hsame]
        simpa using hopen
  unfold pdEnqueue at h
  split at h
  · split at h
    · cases h
    split at h
    · cases h
    split at h
    · exact hentered db _ _ _ rfl h
    · split at h
      · cases h
      · split at h
        · cases h
          exact absurd hout (replay_outcome a.toAdmission db _)
        · exact hentered { db with requests := db.requests.delete a.requestPk } _ _ _ rfl h
  · cases h

/-- What a run was requested as. -/
def origin (r : RunRow) : String × Uuid × String × ℤ × String × Time :=
  (r.env, r.runId, r.productKey, r.zid, r.codeImageDigest, r.createdAt)

/-- The place of a run in the order. -/
def place (x : RunRow × JobRow) : Lex (Time × Uuid) := toLex (x.1.createdAt, x.1.runId)

theorem place_le_iff (x y : RunRow × JobRow) : place y ≤ place x ↔ y.1.createdAt < x.1.createdAt ∨
    y.1.createdAt = x.1.createdAt ∧ y.1.runId ≤ x.1.runId :=
  Prod.Lex.toLex_le_toLex

theorem mem_runsOf {r : RunRow} {j : JobRow} : (r, j) ∈ runsOf db p ↔
    (db.view j.key).job = some j ∧ (db.view j.key).run = some r ∧
      (r.env = p.env ∧ r.zid = p.zid ∧ r.productKey = p.productKey) := by
  have hjob : db.jobs.find j.key = some j ↔ j ∈ db.jobs.rows := by
    constructor
    · exact fun h => (Table.find_eq_some.1 h).1
    · exact fun h => Table.find_of_mem h
  have hrun : db.runs.find (j.env, j.runId) = some r ↔
      r ∈ db.runs.rows ∧ j.env = r.env ∧ j.runId = r.runId := by
    rw [Table.find_eq_some, show Row.key r = (r.env, r.runId) from rfl, Prod.mk.injEq]
    constructor
    · exact fun ⟨h, h₁, h₂⟩ => ⟨h, h₁.symm, h₂.symm⟩
    · exact fun ⟨h, h₁, h₂⟩ => ⟨h, h₁.symm, h₂.symm⟩
  have hview : (db.view j.key).run = (db.jobs.find j.key).bind fun j =>
    db.runs.find (j.env, j.runId) := rfl
  rw [hview, show (db.view j.key).job = db.jobs.find j.key from rfl]
  simp only [runsOf, mem_insertionSort, mem_flatMap, mem_filter, mem_map,
    decide_eq_true_eq]
  constructor
  · rintro ⟨r', ⟨hr, hp⟩, j', ⟨hj, henv, hid⟩, heq⟩
    obtain ⟨rfl, rfl⟩ := Prod.mk.inj heq
    have hfind := hjob.2 hj
    exact ⟨hfind, by rw [hfind]; exact hrun.2 ⟨hr, henv, hid⟩, hp⟩
  · rintro ⟨hfind, hr, hp⟩
    rw [hfind] at hr
    obtain ⟨hmem, henv, hid⟩ := hrun.1 hr
    exact ⟨r, ⟨hmem, hp⟩, j, ⟨hjob.1 hfind, henv, hid⟩, rfl⟩

/-- A run of a product has one job, and its id tells it from the others. -/
theorem runsOf_inj (hg : Jobs.Good Set.univ db.view)
    (hx : x ∈ runsOf db p) (hy : y ∈ runsOf db p) (hid : x.1.runId = y.1.runId) : x = y := by
  obtain ⟨r, j⟩ := x
  obtain ⟨r', j'⟩ := y
  obtain ⟨hj, hr, henv, -⟩ := mem_runsOf.1 hx
  obtain ⟨hj', hr', henv', -⟩ := mem_runsOf.1 hy
  obtain ⟨s, hs, hkey, -⟩ := ((hg.ok _).sound j hj).run
  obtain ⟨s', hs', hkey', -⟩ := ((hg.ok _).sound j' hj').run
  obtain rfl := Option.some.inj (hs.symm.trans hr)
  obtain rfl := Option.some.inj (hs'.symm.trans hr')
  have hsame : (j.env, j.runId) = (j'.env, j'.runId) := by
    rw [← hkey, ← hkey', henv, henv']
    exact congrArg _ hid
  have hk := hg.distinct _ _ _ _ hj hj' hsame
  rw [hk] at hj hs
  obtain rfl := Option.some.inj (hj.symm.trans hj')
  obtain rfl := Option.some.inj (hs.symm.trans hs')
  rfl

theorem runsOf_descending (hg : Jobs.Good Set.univ db.view) (p : Product) :
    Descending place (runsOf db p) := by
  have htotal : Std.Total fun x y : RunRow × JobRow => y.1.createdAt < x.1.createdAt ∨
      y.1.createdAt = x.1.createdAt ∧ y.1.runId ≤ x.1.runId := by
    refine ⟨fun x y => ?_⟩
    rw [← place_le_iff, ← place_le_iff]
    exact le_total _ _
  have htrans : IsTrans (RunRow × JobRow) fun x y => y.1.createdAt < x.1.createdAt ∨
      y.1.createdAt = x.1.createdAt ∧ y.1.runId ≤ x.1.runId := by
    refine ⟨fun x y z => ?_⟩
    rw [← place_le_iff, ← place_le_iff, ← place_le_iff]
    exact fun h h' => h'.trans h
  refine .of_sorted ?_ ?_ fun x hx y hy hplace => ?_
  · exact (pairwise_insertionSort _ _).imp fun h => (place_le_iff _ _).2 h
  · have hrows : ∀ {ρ κ υ : Type} [Row ρ κ υ] (t : Table ρ), t.rows.Nodup :=
      fun t => List.Nodup.of_map _ t.keys_nodup
    refine (perm_insertionSort _ _).nodup_iff.2 (nodup_flatMap.2 ⟨fun r _ => ?_, ?_⟩)
    · exact ((hrows db.jobs).filter _).map fun _ _ h => (Prod.mk.inj h).2
    · refine ((hrows db.runs).filter _).imp fun {r r'} hne => ?_
      rintro ⟨s, j⟩ hs hs'
      obtain ⟨i, -, hi⟩ := mem_map.1 hs
      obtain ⟨i', -, hi'⟩ := mem_map.1 hs'
      exact hne ((Prod.mk.inj hi).1.trans (Prod.mk.inj hi').1.symm)
  · exact runsOf_inj hg hx hy (Prod.mk.inj (toLex.injective hplace)).2

/-- A run with its job, and the same run later. -/
def Evolves (x y : RunRow × JobRow) : Prop := origin y.1 = origin x.1 ∧ x.2.Follows y.2

theorem Evolves.place (h : Evolves x y) : place y = place x := by
  obtain ⟨-, hid, -, -, -, hcreated⟩ :
      y.1.env = x.1.env ∧ y.1.runId = x.1.runId ∧ y.1.productKey = x.1.productKey ∧
        y.1.zid = x.1.zid ∧ y.1.codeImageDigest = x.1.codeImageDigest ∧
        y.1.createdAt = x.1.createdAt := by
    simpa [origin] using h.1
  rw [Delphi.place, Delphi.place, hid, hcreated]

theorem Move.run {v v' : JobView} (h : Move v v') {r : RunRow} (hr : v.run = some r) :
    ∃ r', v'.run = some r' ∧ origin r' = origin r := by
  have hkept : ∀ {f : RunRow → RunRow}, RunRow.Keeps f → origin (f r) = origin r := by
    intro f hf
    obtain ⟨h₁, h₂, h₃, -, h₄, h₅, h₆⟩ := hf r
    rw [origin, origin, h₁, h₂, h₃, h₄, h₅, h₆]
  have hkilled : ∀ (w : JobView) (s : JobState), w.run = some r →
      ∃ r', (w.killed s).run = some r' ∧ origin r' = origin r := by
    intro w s hw
    rw [JobView.killed_run]
    split
    · rw [hw]
      exact ⟨_, rfl, hkept RunRow.die_keeps⟩
    · exact ⟨r, hw, rfl⟩
  cases h with
  | succeed hj hrunning hexit clock sha ended now hf hstate =>
    exact ⟨_, congrArg (Option.map _) hr, hkept hf⟩
  | terminate | wake => exact hkilled _ _ hr
  | cancel => exact ⟨_, congrArg (Option.map _) hr, hkept (RunRow.state_keeps .cancelled)⟩
  | _ => exact ⟨r, hr, rfl⟩

/-- The runs stay, with their jobs. -/
theorem Reach.evolves (hreach : Jobs.Reach Set.univ db.view db'.view) {x : RunRow × JobRow}
    (hx : x ∈ runsOf db p) : ∃ y ∈ runsOf db' p, Evolves x y := by
  obtain ⟨r, j⟩ := x
  obtain ⟨hj, hr, henv, hzid, hproduct⟩ := mem_runsOf.1 hx
  have hkept := Reach.keeps (k := j.key) (I := fun v => (∃ j', v.job = some j' ∧ j.Follows j') ∧
    ∃ r', v.run = some r' ∧ origin r' = origin r) (fun v v' hmove ⟨⟨j', hj', hf⟩, r', hr', ho⟩ => ?_)
    (fun v hv => ⟨_, hv.1.choose_spec.1⟩) hreach ⟨⟨j, hj, .refl j⟩, r, hr, rfl⟩
  · obtain ⟨⟨j', hj', hf⟩, r', hr', ho⟩ := hkept
    have hkey : j'.key = j.key := hf.key
    obtain ⟨h₁, -, h₂, h₃, -⟩ : r'.env = r.env ∧ r'.runId = r.runId ∧ r'.productKey = r.productKey ∧
        r'.zid = r.zid ∧ r'.codeImageDigest = r.codeImageDigest ∧ r'.createdAt = r.createdAt := by
      simpa [origin] using ho
    refine ⟨(r', j'), mem_runsOf.2 ⟨by rw [hkey]; exact hj', by rw [hkey]; exact hr', ?_⟩, ho, hf⟩
    rw [h₁, h₂, h₃]
    exact ⟨henv, hzid, hproduct⟩
  · obtain ⟨j'', hj'', hf'⟩ := hmove.follows.job j' hj'
    obtain ⟨r'', hr'', ho'⟩ := Move.run hmove hr'
    exact ⟨⟨j'', hj'', hf.trans hf'⟩, r'', hr'', ho'.trans ho⟩

/-- If no run is new, the runs keep their order. -/
theorem Reach.same_runs (hg' : Jobs.Good Set.univ db'.view)
    (hg : Jobs.Good Set.univ db.view) (hreach : Jobs.Reach Set.univ db.view db'.view)
    (hnone : ∀ y, ¬ Adds db db' p y) : List.Forall₂ Evolves (runsOf db p) (runsOf db' p) := by
  refine (runsOf_descending hg p).forall₂ (runsOf_descending hg' p) (fun x hx => ?_) fun y hy => ?_
  · obtain ⟨y, hy, he⟩ := Reach.evolves hreach hx
    exact ⟨y, hy, he.place, he⟩
  · obtain ⟨x, hx, hid⟩ : ∃ x ∈ runsOf db p, x.1.runId = y.1.runId := by
      by_contra hno
      push Not at hno
      exact hnone y ⟨hy, hno⟩
    obtain ⟨y', hy', he⟩ := Reach.evolves hreach hx
    have hplace := he.place
    obtain rfl : y' = y := by
      refine runsOf_inj hg' hy' hy ?_
      rw [(Prod.mk.inj (toLex.injective hplace)).2, hid]
    exact ⟨x, hx, hplace.symm⟩

/-! ## Admission of a run -/

/-- The run and the job of an admission. -/
def Admission.enteredRun (a : Admission) (clock : Clock) (stage : Stage) (generation : ℤ) :
    RunRow × JobRow :=
  (withContract (contractOf stage) (a.run generation clock), withStage stage (a.job clock))

/-- A step that adds a run of a product by `pd_enqueue` adds that of its admission and no other. -/
theorem Step.adds {y : RunRow × JobRow} (hg : Jobs.Good Set.univ db.view)
    (h : Step inst b db e db') (hcall : e.call = .enqueue a) (hy : Adds db db' p y) :
    a.product = p ∧ ∃ stage scope generation, a.scope = some scope ∧
      y = a.enteredRun (e.clock.later 1) stage generation ∧
      db.guards.find (a.env, scope) = none ∧ db'.guards.find (a.env, scope) = some (a.guard scope) ∧
      (inst = .largeClass → a.poisoned db = false) ∧
      ∀ z ∈ runsOf db' p, z = y ∨ z ∈ runsOf db p := by
  obtain ⟨clock, call, answer⟩ := e
  obtain rfl : call = .enqueue a := hcall
  have hnot : db'.view ≠ db.view := by
    intro hsame
    obtain ⟨hmem, hnew⟩ := hy
    refine hnew y ?_ rfl
    obtain ⟨r, j⟩ := y
    rw [mem_runsOf, hsame] at hmem
    exact mem_runsOf.2 hmem
  rcases h with ⟨answer', -, hexec⟩ | ⟨error, -, -, rfl⟩
  swap
  · exact absurd rfl hnot
  obtain ⟨reply, -, hbody⟩ := replying_eq_ok (exec_eq_ok hexec).1
  rcases pdEnqueue_spec hg hbody with ⟨⟨requests, rfl⟩, -⟩ |
    ⟨stage, scope, requests, -, hscope, -, hfree, he, hout, -⟩
  · exact absurd rfl hnot
  obtain ⟨generation, hview⟩ := he.view
  have hcase : ∀ z ∈ runsOf db' p,
      z = a.enteredRun (clock.later 1) stage generation ∨ z ∈ runsOf db p := by
    rintro ⟨r, j⟩ hz
    rw [mem_runsOf, hview] at hz
    by_cases hk : j.key = (a.env, a.jobId)
    · rw [hk, Function.update_self] at hz
      obtain ⟨hj, hr, -⟩ := hz
      obtain rfl := Option.some.inj hj
      obtain rfl := Option.some.inj hr
      exact .inl rfl
    · rw [Function.update_of_ne hk] at hz
      exact .inr (mem_runsOf.2 hz)
  obtain ⟨hmem, hnew⟩ := hy
  have hy : y = a.enteredRun (clock.later 1) stage generation := by
    rcases hcase y hmem with hy | hold
    · exact hy
    · exact absurd rfl (hnew y hold)
  refine ⟨?_, stage, scope, generation, hscope, hy, hfree, ?_, fun hinst => ?_, fun z hz => ?_⟩
  · rw [hy] at hmem
    obtain ⟨-, -, henv, hzid, hproduct⟩ := mem_runsOf.1 hmem
    cases p
    cases henv
    cases hzid
    cases hproduct
    rfl
  · rw [Table.find_insert he.guards]
    exact if_pos rfl
  · subst hinst
    exact pdEnqueue_unpoisoned hbody hout
  · rw [hy]
    exact hcase z hz

/-! ## Runs in order -/

/-- Each run was admitted after those before it had ended, and the last three of them were not all dead
under its image. -/
def Latched : List (RunRow × JobRow) → Prop
  | [] => True
  | x :: l => (∀ y ∈ l, y.2.state.terminal = true) ∧ ¬ AllDead x.1.codeImageDigest (l.take 3) ∧
      Latched l

theorem Evolves.image (h : Evolves x y) :
    y.1.codeImageDigest = x.1.codeImageDigest := by
  have ho := h.1
  simp only [origin, Prod.mk.injEq] at ho
  exact ho.2.2.2.2.1

/-- Runs that have ended stay as they are. -/
theorem allDead_of_evolves {l l' : List (RunRow × JobRow)} (image : String)
    (h : List.Forall₂ Evolves l l') (hended : ∀ x ∈ l, x.2.state.terminal = true) :
    (∀ y ∈ l', y.2.state.terminal = true) ∧ (AllDead image (l'.take 3) → AllDead image (l.take 3)) := by
  have hmap : l'.map (fun x => (x.2.state, x.1.codeImageDigest)) =
      l.map fun x => (x.2.state, x.1.codeImageDigest) := by
    induction h with
    | nil => rfl
    | @cons x y l l' hxy _ ih =>
      rw [map_cons, map_cons, hxy.image, hxy.2.terminal (hended x mem_cons_self),
        ih fun z hz => hended z (mem_cons_of_mem _ hz)]
  have hmem : ∀ {m m' : List (RunRow × JobRow)},
      m'.map (fun x => (x.2.state, x.1.codeImageDigest)) =
        m.map (fun x => (x.2.state, x.1.codeImageDigest)) → ∀ x ∈ m, ∃ y ∈ m',
          (y.2.state, y.1.codeImageDigest) = (x.2.state, x.1.codeImageDigest) := by
    intro m m' heq x hx
    have hx' := mem_map_of_mem (f := fun x : RunRow × JobRow =>
      (x.2.state, x.1.codeImageDigest)) hx
    rw [← heq] at hx'
    exact mem_map.1 hx'
  refine ⟨fun y hy => ?_, fun ⟨hlen, hall⟩ => ⟨?_, fun x hx => ?_⟩⟩
  · obtain ⟨x, hx, heq⟩ := hmem hmap.symm y hy
    rw [← (Prod.mk.inj heq).1]
    exact hended x hx
  · have hlength := congrArg List.length hmap
    rw [length_map, length_map] at hlength
    rw [length_take] at hlen ⊢
    omega
  · have htake := congrArg (List.take 3) hmap
    rw [← map_take, ← map_take] at htake
    obtain ⟨y, hy, heq⟩ := hmem htake x hx
    rw [← heq]
    exact hall y hy

theorem Latched.evolves {l l' : List (RunRow × JobRow)} (h : List.Forall₂ Evolves l l')
    (hl : Latched l) : Latched l' := by
  induction h with
  | nil => trivial
  | cons hxy htail ih =>
    obtain ⟨hended, hdead, hl⟩ := hl
    refine ⟨(allDead_of_evolves "" htail hended).1, fun h => hdead ?_, ih hl⟩
    rw [hxy.image] at h
    exact (allDead_of_evolves _ htail hended).2 h

theorem Latched.step (hg : Jobs.Good Set.univ db.view)
    (h : Step .largeClass b db e db') (horder : InOrder p db e db') (hl : Latched (runsOf db p)) :
    Latched (runsOf db' p) := by
  have hreach := h.reach hg
  have hg' := hg.of_reach hreach
  by_cases hnone : ∀ y, ¬ Adds db db' p y
  · exact hl.evolves (Reach.same_runs hg' hg hreach hnone)
  push Not at hnone
  obtain ⟨y, hy⟩ := hnone
  obtain ⟨⟨a, hcall⟩, hearlier⟩ := horder y hy
  obtain ⟨rfl, stage, scope, generation, -, rfl, -, -, hopen, hrest⟩ := h.adds hg hcall hy
  obtain ⟨l, hl', hevolves⟩ := (runsOf_descending hg a.product).forall₂_cons
    (runsOf_descending hg' a.product) hy.1
    (fun x hx => Prod.Lex.toLex_lt_toLex.2 (.inl (hearlier x hx).2))
    (fun x hx => (Reach.evolves hreach hx).imp fun z hz => ⟨hz.1, hz.2.place, hz.2⟩)
    fun z hz => (hrest z hz).imp_right fun hz => ⟨z, hz, rfl⟩
  have hkept := allDead_of_evolves a.codeImageDigest hevolves fun x hx => (hearlier x hx).1
  rw [hl']
  refine ⟨hkept.1, fun hdead => ?_, hl.evolves hevolves⟩
  have hpoisoned := poisoned_iff.2 (hkept.2 hdead)
  rw [hopen rfl] at hpoisoned
  cases hpoisoned

/-- In one scope a run is admitted when the earlier ones have ended. -/
structure Scoped (db : Database) (p : Product) (scope : String) : Prop where
  guarded : Guarded db
  holds : ∀ x ∈ runsOf db p, Holds db scope x.2.key

theorem Scoped.ended (h : Scoped db p scope)
    (hfree : db.guards.find (p.env, scope) = none) {x : RunRow × JobRow} (hx : x ∈ runsOf db p) :
    x.2.state.terminal = true := by
  obtain ⟨r, j⟩ := x
  obtain ⟨hj, hr, henv, -⟩ := mem_runsOf.1 hx
  by_contra hlive
  obtain ⟨g, hfind, -⟩ := (h.holds _ hx).held (.inl ⟨j, hj, by simpa using hlive⟩)
  obtain ⟨s, hs, hkey, -⟩ := ((h.guarded.good.ok _).sound j hj).run
  obtain rfl := Option.some.inj (hs.symm.trans hr)
  have hjenv : j.env = p.env := by
    rw [← henv]
    exact (Prod.mk.inj hkey).1.symm
  rw [show (s, j).2.key.1 = p.env from hjenv, hfree] at hfind
  cases hfind

theorem Scoped.inOrder (h : Scoped db p scope)
    (hs : Step inst b db e db') (hin : InScope p scope db e db') : InOrder p db e db' := by
  intro y hy
  obtain ⟨⟨a, hcall, hscope⟩, hlate⟩ := hin y hy
  obtain ⟨rfl, stage, scope', generation, hscope', -, hfree, -, -, -⟩ :=
    hs.adds h.guarded.good hcall hy
  obtain rfl := Option.some.inj (hscope'.symm.trans hscope)
  exact ⟨⟨a, hcall⟩, fun x hx => ⟨h.ended hfree hx, hlate x hx⟩⟩

theorem Scoped.step (h : Scoped db p scope)
    (hs : Step inst b db e db') (hin : InScope p scope db e db') : Scoped db' p scope := by
  have hg := h.guarded.good
  have hreach := hs.reach hg
  have hg' := hg.of_reach hreach
  refine ⟨h.guarded.step hs, fun y hy => ?_⟩
  by_cases hnew : ∀ x ∈ runsOf db p, x.1.runId ≠ y.1.runId
  · obtain ⟨⟨a, hcall, hscope⟩, -⟩ := hin y ⟨hy, hnew⟩
    obtain ⟨-, stage, scope', generation, hscope', rfl, -, hguard, -, -⟩ := hs.adds hg hcall ⟨hy, hnew⟩
    obtain rfl := Option.some.inj (hscope'.symm.trans hscope)
    exact ⟨⟨_, (mem_runsOf.1 hy).1⟩, fun _ => ⟨_, hguard, rfl⟩⟩
  · push Not at hnew
    obtain ⟨x, hx, hid⟩ := hnew
    obtain ⟨y', hy', he⟩ := Reach.evolves hreach hx
    obtain rfl : y' = y := by
      refine runsOf_inj hg' hy' hy ?_
      rw [(Prod.mk.inj (toLex.injective he.place)).2, hid]
    rw [show y'.2.key = x.2.key from he.2.key]
    exact (h.holds x hx).step h.guarded hs

/-! ## The result -/

end Polis.Delphi
