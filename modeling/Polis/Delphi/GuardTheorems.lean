import Polis.Delphi.ProcessTheorems

/-!
# One live root for each scope

A scope gets a root job only while it has no guard, and the guard stays until every job of the tree has
ended, so of the jobs that were ever admitted to a scope at most one is live. An admission to a scope
that is held creates no job; what it answers depends on its request key.

Reference: `server/postgres/migrations/000023_create_delphi_foundation.sql`,
`server/postgres/migrations/000024_create_polis_queue_large_class.sql`.
-/

namespace Polis.Delphi

open Queue List Function Option

/-! ## The statement -/

/-- The job has not ended, or its process or the provider may still be at work. -/
def Live (db : Database) (k : JobKey) : Prop :=
  (∃ j, db.jobs.find k = some j ∧ j.state.terminal = false) ∨ unconfirmed db k = true ∨
    hasRequest db k ProviderState.open = true

/-- The reply that an event carries. -/
def Event.reply (e : Event) : Option Reply :=
  match e.answer with
  | .ok (.queue (.reply r)) => some r
  | _ => none

/-- The scope and the root job of an admission that created a job. -/
def Event.admitted (e : Event) : Option (String × JobKey) :=
  match e.call with
  | .enqueue a =>
    if e.reply.any (·.outcome = .enqueued) then a.scope.map (·, (a.env, a.jobId)) else none
  | _ => none

/-- The job that the key of a request is bound to; a key of `pq_enqueue` stays bound. -/
def Admission.bound (a : Admission) (db : Database) (now : Time) : Option RequestRow :=
  (db.requests.find a.requestPk).filter fun q => q.bindingExpiresAt.all (now < ·)

/-- The answer of a scope that is held: the holder, and whether the request is that of the holder. -/
def AnswersHolder (db : Database) (a : Admission) (g : GuardRow) (r : Reply) : Prop :=
  (∃ j, db.jobs.find (a.env, g.rootJobId) = some j ∧ r.job = some j) ∧
    r.outcome = if g.requestSha256 = a.requestSha256 then .existing else .conflict

/-- The request is for the conversation, the report, the kind and the product of the holder. -/
def MatchesHolder (db : Database) (a : Admission) (g : GuardRow) : Prop :=
  ∃ stage ∈ a.stage, ∃ j, db.jobs.find (a.env, g.rootJobId) = some j ∧ a.boundTo db stage g j = true

/-- An admission to a scope that is held creates no job. A key that is still bound answers with its own
job. Any other request is answered with the holder, if it is for the same conversation, report, kind and
product; else it is refused. -/
structure Held (inst : Installed) (db : Database) (e : Event) (db' : Database) (a : Admission)
    (g : GuardRow) : Prop where
  jobs : db'.jobs = db.jobs
  guards : db'.guards = db.guards
  replayed : ∀ q r, a.bound db (e.clock.read 0) = some q → e.reply = some r → r = a.replay db q
  answered : ∀ r, a.bound db (e.clock.read 0) = none → e.reply = some r →
    AnswersHolder db a g r ∧ MatchesHolder db a g
  accepted : a.bound db (e.clock.read 0) = none → a.valid inst = true → a.zid ∈ db.conversations →
    Row.check a.request → MatchesHolder db a g → e.reply.isSome

/-- A guard stays, or `pd_release_scope` takes it because no job of its tree is live. -/
def GuardKept (db : Database) (e : Event) (db' : Database) : Prop :=
  ∀ env scope g, db.guards.find (env, scope) = some g →
    db'.guards.find (env, scope) = some g ∨
      e.call = .releaseScope env scope ∧ ∀ id, InTree db g.rootJobId id → ¬ Live db (env, id)

/-! ## What every call keeps -/

variable {db db' : Database} {clock : Clock} {k : JobKey} {j : JobRow} {inst : Installed}
  {b : Builtins} {reply : Reply}
variable {e : Event}
variable {v v' : JobView}

/-- A job that has ended, with its process and its requests. -/
structure Settled (v : JobView) : Prop where
  ended : ∃ j, v.job = some j ∧ j.state.terminal = true
  exited : v.ExitsConfirmed
  closed : v.NoOpen

theorem Settled.not_live (h : Settled (db.view k)) : ¬ Live db k := by
  obtain ⟨⟨j, hj, hterminal⟩, hexited, hclosed⟩ := h
  rintro (⟨i, hi, hlive⟩ | hlive | hlive)
  · obtain rfl : j = i := Option.some.inj (hj.symm.trans hi)
    rw [hterminal] at hlive
    cases hlive
  · rw [unconfirmed_eq_false.2 hexited] at hlive
    cases hlive
  · rw [noOpen_iff.2 hclosed] at hlive
    cases hlive

theorem settled_of_not_live (hj : (db.view k).job = some j) (h : ¬ Live db k) :
    Settled (db.view k) where
  ended := by
    refine ⟨j, hj, ?_⟩
    by_contra hterminal
    exact h (.inl ⟨j, hj, by simpa using hterminal⟩)
  exited := unconfirmed_eq_false.1 (by simpa using fun hlive => h (.inr (.inl hlive)))
  closed := noOpen_iff.1 (by simpa using fun hlive => h (.inr (.inr hlive)))

/-- The job has ended. -/
def Ended (v : JobView) : Prop := ∃ j, v.job = some j ∧ j.state.terminal = true

/-- What may still be recorded about a job that has ended. No request is closed any more. -/
theorem Move.ended_cases (h : Move v v') (hended : Ended v) :
    (∃ f, DelphiJobRow.Keeps f ∧ v' = v.setDelphi f) ∨
    (∃ id now, v' = v.setAttempt id (AttemptRow.confirmExit now)) ∨
    ∃ id f, ProviderRow.Keeps f ∧ (∀ r ∈ v.requests, r.requestId = id →
      (f r).state.open = r.state.open) ∧ v' = v.setRequest id f := by
  obtain ⟨i, hi, hterminal⟩ := hended
  have hno : ∀ {j : JobRow}, v.job = some j → j.state.terminal = false → False := by
    intro j hj hlive
    obtain rfl : i = j := Option.some.inj (hi.symm.trans hj)
    rw [hterminal] at hlive
    cases hlive
  cases h with
  | claim hj hwaiting => exact (hno hj (JobState.waiting_not_terminal hwaiting)).elim
  | renew hj hrunning | succeed hj hrunning | terminate hj hrunning | intent hj hrunning =>
    exact (hno hj (by rw [hrunning]; rfl)).elim
  | @digest f hf hstatus => exact .inl ⟨f, hf, rfl⟩
  | unpark hj hparked | postpone hj hparked | wake hj hparked => exact (hno hj (by rw [hparked]; rfl)).elim
  | confirm id now => exact .inr (.inl ⟨id, now, rfl⟩)
  | cancel hj hlive => exact (hno hj hlive).elim
  | @record id f hf hopen hclose hresolve =>
    refine .inr (.inr ⟨id, f, hf, fun r hr hid => ?_, rfl⟩)
    cases hr₀ : r.state.open with
    | false => rw [hopen r hr hid hr₀, hr₀]
    | true =>
      by_contra hclosed
      obtain ⟨j, hj, hrunning⟩ := hclose r hr hid hr₀ (by simpa using hclosed)
      exact hno hj (by rw [hrunning]; rfl)

theorem Move.ended (h : Move v v') (hended : Ended v) : Ended v' := by
  obtain ⟨j, hj, hterminal⟩ := hended
  obtain ⟨j', hj', hf⟩ := h.follows.job j hj
  obtain rfl := hf.terminal hterminal
  exact ⟨j', hj', hterminal⟩

/-- A job that has ended has an open request exactly if it had one when it ended. -/
theorem Move.noOpen_iff (h : Move v v') (hended : Ended v) :
    v'.NoOpen ↔ v.NoOpen := by
  rcases Move.ended_cases h hended with ⟨f, -, rfl⟩ | ⟨id, now, rfl⟩ | ⟨id, f, -, hopen, rfl⟩
  · exact Iff.rfl
  · exact Iff.rfl
  · have hsame : ∀ r ∈ v.requests,
        (if r.requestId = id then f r else r).state.open = r.state.open := by
      intro r hr
      split
      · next hid => exact hopen r hr hid
      · rfl
    constructor
    · exact fun hclosed r hr => (hsame r hr).symm.trans (hclosed _ (mem_map_of_mem hr))
    · intro hclosed r hr
      obtain ⟨x, hx, rfl⟩ := mem_map.1 hr
      exact (hsame x hx).trans (hclosed x hx)

/-- Nothing happens any more to a job that has settled, apart from what its rows record. -/
theorem Move.settled (h : Move v v') (hs : Settled v) : Settled v' := by
  refine ⟨Move.ended h hs.ended, fun a ha => ?_, (Move.noOpen_iff h hs.ended).2 hs.closed⟩
  rcases Move.ended_cases h hs.ended with ⟨f, -, rfl⟩ | ⟨id, now, rfl⟩ | ⟨id, f, -, -, rfl⟩
  · exact hs.exited a ha
  · obtain ⟨x, hx, rfl⟩ := JobView.mem_setAttempt.1 ha
    obtain ⟨t, ht⟩ := isSome_iff_exists.1 (hs.exited x hx)
    split
    · simp [AttemptRow.confirmExit, ht]
    · simp [ht]
  · exact hs.exited a ha

/-- The logical job of a move is the one from before, with the same parent. -/
theorem Move.parent (h : Move v v') {d : DelphiJobRow} (hd : v'.delphi = some d) :
    ∃ d', v.delphi = some d' ∧ d.parentJobId = d'.parentJobId := by
  have hstate : ∀ (w : JobView) (now : Time) (f : JobRow → JobRow),
      (w.setState now f).delphi = some d →
        ∃ d', w.delphi = some d' ∧ d.parentJobId = d'.parentJobId := by
    intro w now f hd
    simp only [JobView.setState] at hd
    split at hd
    · exact ⟨d, hd, rfl⟩
    · split at hd
      · exact ⟨d, hd, rfl⟩
      · obtain ⟨d', hd', rfl⟩ := map_eq_some_iff.1 hd
        exact ⟨d', hd', rfl⟩
  cases h with
  | claim | succeed | cancel => exact hstate _ _ _ hd
  | digest hf hstatus =>
    obtain ⟨d', hd', rfl⟩ := map_eq_some_iff.1 hd
    exact ⟨d', hd', (hf d').2.2.1⟩
  | terminate | wake =>
    rw [JobView.killed_delphi] at hd
    exact hstate _ _ _ hd
  | renew | unpark | postpone | confirm | intent | record => exact ⟨d, hd, rfl⟩

/-- No logical job has a parent. -/
def Parentless (views : JobKey → JobView) : Prop :=
  ∀ k d, (views k).delphi = some d → d.parentJobId = none

section Reach

variable {views views' : JobKey → JobView}

/-- What every move keeps of a job that is there is kept by every call. -/
theorem Reach.keeps {I : JobView → Prop} (hmove : ∀ v v', Move v v' → I v → I v')
    (hjob : ∀ v, I v → ∃ j, v.job = some j) (h : Jobs.Reach Set.univ views views')
    (hk : I (views k)) : I (views' k) := by
  induction h with
  | refl => exact hk
  | tail hreach hstep ih =>
    cases hstep with
    | @enter i j r d hnone hj hstage hkey hrun hfresh hdelphi hroot =>
      rw [update_of_ne]
      · exact ih
      rintro rfl
      obtain ⟨j', hj'⟩ := hjob _ ih
      rw [hnone] at hj'
      cases hj'
    | @move i v' h =>
      by_cases hk : k = i
      · subst hk
        rw [update_self]
        exact hmove _ _ h ih
      · rwa [update_of_ne hk]

theorem Reach.settled (h : Jobs.Reach Set.univ views views') (hs : Settled (views k)) :
    Settled (views' k) :=
  Reach.keeps (fun _ _ => Move.settled) (fun _ hs => ⟨_, hs.ended.choose_spec.1⟩) h hs

/-- Whether an ended job has open requests does not change. -/
theorem Reach.ended (h : Jobs.Reach Set.univ views views') (hended : Ended (views k)) :
    Ended (views' k) ∧ ((views' k).NoOpen ↔ (views k).NoOpen) := by
  refine Reach.keeps (I := fun v => Ended v ∧ (v.NoOpen ↔ (views k).NoOpen))
    (fun v v' hm hv => ⟨Move.ended hm hv.1, (Move.noOpen_iff hm hv.1).trans hv.2⟩)
    (fun v hv => ⟨_, hv.1.choose_spec.1⟩) h ⟨hended, Iff.rfl⟩

theorem Reach.parentless (h : Jobs.Reach Set.univ views views') (hp : Parentless views) :
    Parentless views' := by
  induction h with
  | refl => exact hp
  | tail hreach hstep ih =>
    intro k d hd
    cases hstep with
    | @enter i j r d₀ hnone hj hstage hkey hrun hfresh hdelphi hroot =>
      by_cases hk : k = i
      · subst hk
        rw [update_self] at hd
        exact hroot d hd
      · rw [update_of_ne hk] at hd
        exact ih k d hd
    | @move i v' hmove =>
      by_cases hk : k = i
      · subst hk
        rw [update_self] at hd
        obtain ⟨d', hd', heq⟩ := Move.parent hmove hd
        rw [heq]
        exact ih k d' hd'
      · rw [update_of_ne hk] at hd
        exact ih k d hd

end Reach

/-! ## The guards -/

/-- What holds of the guards in every database that the calls reach: each names a job that is not a
noop, and no job is the child of another. -/
structure Guarded (db : Database) : Prop where
  good : Jobs.Good Set.univ db.view
  attested : ∀ k, AttestedView (db.view k)
  parentless : Parentless db.view
  rooted : ∀ env scope g, db.guards.find (env, scope) = some g →
    ∃ j, (db.view (env, g.rootJobId)).job = some j ∧ j.stage ≠ .noop

/-- The jobs and guards that are there stay, unless a release takes a guard. -/
theorem Guarded.moves {call : Call} {answer : Answer} (hg : Guarded db)
    (h : Moves inst db db' call clock answer) : Guarded db' := by
  have hreach := h.reach
  have hkept : ∀ k j, (db.view k).job = some j → j.stage ≠ .noop →
      ∃ j', (db'.view k).job = some j' ∧ j'.stage ≠ .noop := by
    intro k j hj hstage
    obtain ⟨j', hj', hf⟩ := (hreach.follows hg.good k).job j hj
    exact ⟨j', hj', by rwa [hf.stage]⟩
  refine ⟨hg.good.of_reach hreach, Reach.attested hreach hg.attested,
    Reach.parentless hreach hg.parentless, fun env scope g hfind => ?_⟩
  cases h with
  | progress h hold =>
    rw [h.guards] at hfind
    obtain ⟨j, hj, hstage⟩ := hg.rooted env scope g hfind
    exact hkept _ j hj hstage
  | @enter a stage scope' requests clock reply hstage hscope hmem hfree he hout hjob =>
    rw [Table.find_insert he.guards] at hfind
    split at hfind
    · next hkey =>
      obtain rfl := Option.some.inj hfind
      obtain ⟨rfl, -⟩ : env = a.env ∧ scope = scope' := Prod.mk.inj hkey
      obtain ⟨generation, hview⟩ := he.view
      refine ⟨withStage stage (a.job (clock.later 1)), ?_, ?_⟩
      · show (db'.view (a.env, a.jobId)).job = _
        rw [hview, update_self]
        rfl
      · rintro rfl
        cases inst <;> simp [Installed.stages] at hmem
    · obtain ⟨j, hj, hstage⟩ := hg.rooted env scope g hfind
      exact hkept _ j hj hstage
  | release hfound hended hclosed hdb =>
    subst hdb
    rw [Table.find_delete] at hfind
    split at hfind
    · cases hfind
    · exact hg.rooted env scope g hfind

theorem Guarded.step (hg : Guarded db) (h : Step inst b db e db') : Guarded db' := by
  rcases h with ⟨answer, -, hexec⟩ | ⟨error, -, -, rfl⟩
  · exact hg.moves (body_moves hg.good (exec_eq_ok hexec).1)
  · exact hg

theorem reachable_guarded {conversations : List ℤ} {es : List Event}
    (h : Run (Step inst b) (.fresh conversations) es db) : Guarded db := by
  have hfresh : Guarded (.fresh conversations) := by
    refine ⟨fresh_good conversations, ?_, ?_, ?_⟩
    · exact fun k j (hj : none = some j) => nomatch hj
    · exact fun k d (hd : none = some d) => nomatch hd
    · exact fun env scope g (hfind : none = some g) => nomatch hfind
  exact h.keeps Guarded hfresh fun _ _ _ hg hs => hg.step hs

/-- A tree is its root. -/
theorem Guarded.tree (hg : Guarded db) {root id : Uuid} (h : InTree db root id) : id = root := by
  induction h with
  | refl => rfl
  | @tail p c hpath hparent ih =>
    obtain ⟨d, hd, hid, hp⟩ := hparent
    have hview : (db.view (d.env, d.jobId)).delphi = some d := by
      simp [Database.view, show db.delphiJobs.find d.jobId = some d from Table.find_of_mem hd]
    rw [hg.parentless _ d hview] at hp
    cases hp

/-- The jobs of a tree that has ended are there and have ended. -/
theorem Guarded.ended (hg : Guarded db) {env scope : String} {g : GuardRow}
    (hfind : db.guards.find (env, scope) = some g) (hended : TreeEnded db env g.rootJobId)
    {id : Uuid} (hid : InTree db g.rootJobId id) : Ended (db.view (env, id)) := by
  have hterminal := (hended id hid).1
  obtain rfl := hg.tree hid
  obtain ⟨j, hj, hstage⟩ := hg.rooted env scope g hfind
  obtain ⟨d, hd, hstatus⟩ := (hg.attested _ j hj hstage).status
  exact ⟨j, hj, by rw [← hstatus]; exact hterminal d (filter_eq_some_iff.1 hd).1⟩

/-- The jobs of a tree that may be released have settled. -/
theorem Guarded.settled (hg : Guarded db) {env scope : String} {g : GuardRow}
    (hfind : db.guards.find (env, scope) = some g) (hended : TreeEnded db env g.rootJobId)
    (hclosed : TreeClosed db env g.rootJobId) {id : Uuid} (hid : InTree db g.rootJobId id) :
    Settled (db.view (env, id)) :=
  ⟨hg.ended hfind hended hid, (hended id hid).2, hclosed id hid⟩

theorem Guarded.kept (hg : Guarded db) (h : Step inst b db e db') :
    GuardKept db e db' := by
  intro env scope g hfind
  rcases h with ⟨answer, -, hexec⟩ | ⟨error, -, -, rfl⟩
  swap
  · exact .inl hfind
  have hmoves := body_moves hg.good (exec_eq_ok hexec).1
  generalize e.call = call at hmoves ⊢
  generalize e.clock = clock at hmoves
  cases hmoves with
  | progress h hold =>
    rw [h.guards]
    exact .inl hfind
  | @enter a stage scope' requests clock reply hstage hscope hmem hfree he hout hjob =>
    rw [Table.find_insert he.guards, if_neg]
    · exact .inl hfind
    · intro hkey
      rw [hkey] at hfind
      exact absurd (hfind.symm.trans hfree) nofun
  | @release env' scope' g' clock hfound hended hclosed hdb =>
    subst hdb
    rw [Table.find_delete]
    split
    · next hkey =>
      obtain ⟨rfl, rfl⟩ := Prod.mk.inj hkey
      obtain rfl : g' = g := Option.some.inj (hfound.symm.trans hfind)
      exact .inr ⟨rfl, fun id hid => (hg.settled hfind hended hclosed hid).not_live⟩
    · exact .inl hfind

/-! ## Admission to a scope that is held -/

variable {a : Admission} {stage : Stage} {scope : String} {g : GuardRow}

theorem enterScope_held (hstage : a.stage = some stage)
    (hfind : db.guards.find (a.env, scope) = some g)
    (h : a.enterScope inst db clock stage scope = .ok (reply, db')) :
    (AnswersHolder db a g reply ∧ MatchesHolder db a g) ∧ ∃ requests, db' = { db with requests } := by
  unfold Admission.enterScope at h
  rw [hfind] at h
  obtain ⟨j, hj, hbound, hjob, ⟨hsha, hout, rfl⟩ | ⟨hsha, hout, hdb⟩⟩ := meetGuard_spec h
  · exact ⟨⟨⟨⟨j, hj, hjob⟩, by rw [hout, if_neg hsha]⟩, stage, hstage, j, hj, hbound⟩, _, rfl⟩
  · exact ⟨⟨⟨⟨j, hj, hjob⟩, by rw [hout, if_pos hsha]⟩, stage, hstage, j, hj, hbound⟩, hdb⟩

/-- What an admission to a scope that is held answers. -/
theorem pdEnqueue_held (hscope : a.scope = some scope)
    (hfind : db.guards.find (a.env, scope) = some g)
    (h : pdEnqueue inst db clock a = .ok (reply, db')) :
    (∃ q, a.bound db (clock.read 0) = some q ∧ reply = a.replay db q ∧ db' = db) ∨
      a.bound db (clock.read 0) = none ∧ (AnswersHolder db a g reply ∧ MatchesHolder db a g) ∧
        ∃ requests, db' = { db with requests } := by
  unfold pdEnqueue at h
  split at h
  swap
  · cases h
  next stage scope' hstage hscope' =>
  obtain rfl : scope = scope' := Option.some.inj (hscope.symm.trans hscope')
  split at h
  · cases h
  split at h
  · cases h
  split at h
  · next hfresh =>
    exact .inr ⟨by simp [Admission.bound, hfresh], enterScope_held hstage hfind h⟩
  · next q hq =>
    split at h
    · cases h
    · next expires hexpires =>
      split at h
      · next hlive =>
        cases h
        exact .inl ⟨q, by simp [Admission.bound, hq, hexpires, hlive], rfl, rfl⟩
      · next hlapsed =>
        have hfind' : ({ db with requests := db.requests.delete a.requestPk } :
            Database).guards.find (a.env, scope) = some g := hfind
        have hheld := enterScope_held hstage hfind' h
        exact .inr ⟨by simpa [Admission.bound, hq, hexpires] using hlapsed, hheld⟩

theorem meetGuard_accepts (hj : db.jobs.find (a.env, g.rootJobId) = some j)
    (hbound : a.boundTo db stage g j = true) (hcheck : Row.check a.request)
    (hfree : db.requests.find a.requestPk = none) :
    ∃ p, a.meetGuard db clock stage g = .ok p := by
  unfold Admission.meetGuard
  rw [hj]
  simp only [hbound, Bool.not_true, Bool.false_eq_true, if_false]
  split
  · exact ⟨_, rfl⟩
  · obtain ⟨t, ht⟩ : ∃ t, db.requests.insert (a.binding j (clock.read 0)) = .ok t :=
      Table.exists_insert hfree hcheck fun u h => nomatch h
    exact ⟨_, bind_eq_ok.2 ⟨{ db with requests := t }, write_eq_ok.2 ⟨t, ht, rfl⟩, rfl⟩⟩

/-- A request for the holder's conversation, report, kind and product is answered. -/
theorem pdEnqueue_accepts (hscope : a.scope = some scope) (hstage : a.stage = some stage)
    (hfind : db.guards.find (a.env, scope) = some g) (hfree : a.bound db (clock.read 0) = none)
    (hvalid : a.valid inst = true) (hzid : a.zid ∈ db.conversations) (hcheck : Row.check a.request)
    (hj : db.jobs.find (a.env, g.rootJobId) = some j) (hbound : a.boundTo db stage g j = true) :
    ∃ p, pdEnqueue inst db clock a = .ok p := by
  unfold pdEnqueue
  simp only [hscope, hstage, hvalid, Bool.not_true, Bool.false_eq_true, if_false, hzid,
    not_true_eq_false]
  cases hq : db.requests.find a.requestPk with
  | none =>
    simp only [Admission.enterScope, hfind]
    exact meetGuard_accepts hj hbound hcheck hq
  | some q =>
    have hlapsed : q.bindingExpiresAt.all (clock.read 0 < ·) = false := by
      simpa [Admission.bound, hq, Option.filter] using hfree
    cases hexpires : q.bindingExpiresAt with
    | none => simp [hexpires] at hlapsed
    | some expires =>
      rw [hexpires] at hlapsed
      have hnot : ¬ clock.read 0 < expires := by simpa using hlapsed
      simp only [hexpires, if_neg hnot, Admission.enterScope, hfind]
      refine meetGuard_accepts hj hbound hcheck ?_
      show (db.requests.delete a.requestPk).find a.requestPk = none
      rw [Table.find_delete, if_pos rfl]

/-- A call that leaves the jobs alone commits. -/
theorem bindingsHold_of_jobs (h : db'.jobs = db.jobs) : bindingsHold db db' = true := by
  simp only [bindingsHold, List.all_eq_true, h, Bool.or_eq_true, decide_eq_true_eq]
  exact fun j hj => .inl hj

theorem Step.held (hcall : e.call = .enqueue a) (hscope : a.scope = some scope)
    (hfind : db.guards.find (a.env, scope) = some g) (h : Step inst b db e db') :
    Held inst db e db' a g := by
  obtain ⟨clock, call, answer⟩ := e
  obtain rfl : call = .enqueue a := hcall
  rcases h with ⟨answer', hanswer, hexec⟩ | ⟨error, hanswer, hexec, rfl⟩
  · obtain rfl : answer = .ok answer' := hanswer
    obtain ⟨r, rfl, hbody⟩ := replying_eq_ok (exec_eq_ok hexec).1
    have hreply : ∀ r', some r = some r' → r = r' := fun r' h => Option.some.inj h
    rcases pdEnqueue_held hscope hfind hbody with ⟨q, hq, rfl, rfl⟩ | ⟨hq, hr, requests, rfl⟩
    · refine ⟨rfl, rfl, fun q' r' hq' hr' => ?_, fun r' hnone => ?_, fun _ _ _ _ _ => rfl⟩
      · obtain rfl : q = q' := Option.some.inj (hq.symm.trans hq')
        exact (hreply r' hr').symm
      · exact absurd (hq.symm.trans hnone) nofun
    · refine ⟨rfl, rfl, fun q' r' hq' => ?_, fun r' _ hr' => ?_, fun _ _ _ _ _ => rfl⟩
      · exact absurd (hq'.symm.trans hq) nofun
      · obtain rfl := hreply r' hr'
        exact hr
  · obtain rfl : answer = .error error := hanswer
    refine ⟨rfl, rfl, fun _ _ _ (h : none = some _) => (nomatch h),
      fun _ _ (h : none = some _) => (nomatch h),
      fun hfree hvalid hzid hcheck ⟨stage, hstage, j, hj, hbound⟩ => ?_⟩
    obtain ⟨⟨r, db₁⟩, hok⟩ :=
      pdEnqueue_accepts hscope hstage hfind hfree hvalid hzid hcheck hj hbound
    have hjobs : db₁.jobs = db'.jobs := by
      rcases pdEnqueue_held hscope hfind hok with ⟨-, -, -, rfl⟩ | ⟨-, -, requests, rfl⟩ <;> rfl
    have hbody : (Call.enqueue a).body inst b db' clock = .ok (.queue (.reply r), db₁) := by
      show replying (pdEnqueue inst db' clock a) = _
      rw [hok]
      rfl
    have hcommit : (Call.enqueue a).exec inst b db' clock = .ok (.queue (.reply r), db₁) :=
      bind_eq_ok.2 ⟨_, hbody, if_pos (bindingsHold_of_jobs hjobs)⟩
    rw [hcommit] at hexec
    cases hexec

/-! ## Every run -/

/-- A job that was admitted to a scope: if it is live, the guard of the scope names it. -/
structure Holds (db : Database) (scope : String) (k : JobKey) : Prop where
  job : ∃ j, (db.view k).job = some j
  held : Live db k → ∃ g, db.guards.find (k.1, scope) = some g ∧ g.rootJobId = k.2

theorem Holds.step (hg : Guarded db) (h : Step inst b db e db') (hk : Holds db scope k) :
    Holds db' scope k := by
  have hreach := h.reach hg.good
  obtain ⟨j, hj⟩ := hk.job
  obtain ⟨j', hj', -⟩ := (hreach.follows hg.good k).job j hj
  refine ⟨⟨j', hj'⟩, fun hlive => ?_⟩
  have hback : Live db k := by
    by_contra hnot
    exact (Reach.settled hreach (settled_of_not_live hj hnot)).not_live hlive
  obtain ⟨g, hfind, hroot⟩ := hk.held hback
  rcases hg.kept h k.1 scope g hfind with hfind' | ⟨-, hdone⟩
  · exact ⟨g, hfind', hroot⟩
  · have hnot := hdone g.rootJobId .refl
    rw [hroot] at hnot
    exact absurd hback hnot

/-- A job that is admitted gets the guard of its scope. -/
theorem Step.admitted (hg : Guarded db) (h : Step inst b db e db')
    (hk : e.admitted = some (scope, k)) : Holds db' scope k := by
  obtain ⟨clock, call, answer⟩ := e
  unfold Event.admitted at hk
  dsimp only at hk
  split at hk
  swap
  · cases hk
  next a =>
  split at hk
  swap
  · cases hk
  next hout =>
  obtain ⟨scope₀, hscope₀, heq⟩ := map_eq_some_iff.1 hk
  obtain ⟨rfl, rfl⟩ := Prod.mk.inj heq
  obtain ⟨r, hr, hentered⟩ := (any_eq_true _ _).1 hout
  rcases h with ⟨answer', hanswer, hexec⟩ | ⟨error, hanswer, -⟩
  swap
  · obtain rfl : answer = .error error := hanswer
    cases hr
  obtain rfl : answer = .ok answer' := hanswer
  have hmoves := body_moves hg.good (exec_eq_ok hexec).1
  cases hmoves with
  | progress h hold =>
    refine absurd (of_decide_eq_true hentered) (hold a r rfl ?_)
    unfold Event.reply at hr
    dsimp only at hr
    split at hr
    · next heq =>
      obtain rfl := Option.some.inj hr
      exact Except.ok.inj heq
    · cases hr
  | @enter _ stage scope requests _ reply hstage hscope hmem hfree he hout hjob =>
    obtain rfl : scope = scope₀ := Option.some.inj (hscope.symm.trans hscope₀)
    obtain ⟨generation, hview⟩ := he.view
    refine ⟨⟨withStage stage (a.job (clock.later 1)), ?_⟩, fun _ => ⟨a.guard scope, ?_, rfl⟩⟩
    · rw [hview, update_self]
      rfl
    · rw [Table.find_insert he.guards]
      exact if_pos rfl

theorem reachable_holds {conversations : List ℤ} {es : List Event}
    (h : Run (Step inst b) (.fresh conversations) es db)
    (hk : (scope, k) ∈ es.filterMap Event.admitted) : Holds db scope k := by
  refine h.invariant (fun es db => ∀ p ∈ es.filterMap Event.admitted, Holds db p.1 p.2) (by simp)
    (fun es db e db' hrun hinv hs p hp => ?_) (scope, k) hk
  have hg := reachable_guarded hrun
  rw [filterMap_append, mem_append] at hp
  rcases hp with hp | hp
  · exact (hinv p hp).step hg hs
  · obtain ⟨e', he', hadmitted⟩ := mem_filterMap.1 hp
    rw [mem_singleton.1 he'] at hadmitted
    exact hs.admitted hg hadmitted

/-- Over any calls in any order: at most one of the jobs admitted to a scope is live, and the guard of the
scope names it; a guard goes only by a release, when no job of its tree is live; and an admission to a
scope that is held creates no job and answers as `Held` says. -/
theorem scope_guard {conversations : List ℤ} {es : List Event}
    (h : Run (Step inst b) (.fresh conversations) es db) :
    (∀ scope k k', (scope, k) ∈ es.filterMap Event.admitted →
      (scope, k') ∈ es.filterMap Event.admitted → k.1 = k'.1 → Live db k → Live db k' → k = k') ∧
    (∀ scope k, (scope, k) ∈ es.filterMap Event.admitted → Live db k →
      ∃ g, db.guards.find (k.1, scope) = some g ∧ g.rootJobId = k.2) ∧
    ∀ e db', Step inst b db e db' → GuardKept db e db' ∧
      ∀ a scope g, e.call = .enqueue a → a.scope = some scope →
        db.guards.find (a.env, scope) = some g → Held inst db e db' a g := by
  refine ⟨fun scope k k' hk hk' henv hlive hlive' => ?_,
    fun scope k hk => (reachable_holds h hk).held, fun e db' hs =>
      ⟨(reachable_guarded h).kept hs, fun a scope g hcall hscope hfind =>
        hs.held hcall hscope hfind⟩⟩
  obtain ⟨g, hfind, hroot⟩ := (reachable_holds h hk).held hlive
  obtain ⟨g', hfind', hroot'⟩ := (reachable_holds h hk').held hlive'
  rw [henv] at hfind
  obtain rfl : g = g' := Option.some.inj (hfind.symm.trans hfind')
  exact Prod.ext henv (hroot.symm.trans hroot')

/-- Two scopes, each with its root job. -/
private def twoScopes : List (Clock × Call) :=
  [(.still 0, .enqueue (sampleAdmission "first scope" "first" 10 20)),
    (.still 1, .enqueue (sampleAdmission "second scope" "second" 11 21))]

/-- The request key of the first scope, used for the second. -/
private def otherKey : Clock × Call :=
  (.still 2, .enqueue (sampleAdmission "second scope" "first" 12 22))

private theorem twoScopes_spec :
    ((history .foundation noBuiltins [1] twoScopes).2.guards.find ("dev", "first scope")).map
      (·.rootJobId) = some 20 ∧
    ((history .foundation noBuiltins [1] twoScopes).2.guards.find ("dev", "second scope")).map
      (·.rootJobId) = some 21 ∧
    (((history .foundation noBuiltins [1] twoScopes).2.jobs.find ("dev", 20)).any
      fun j => !j.state.terminal) ∧
    (Call.event .foundation noBuiltins (history .foundation noBuiltins [1] twoScopes).2
      otherKey).1.reply.map (fun r => r.job.map (·.jobId)) = some (some 20) := by
  decide +kernel

/-- The guard of the first scope stays when its request key is used for the second. -/
theorem scope_guard_two_scopes :
    ((Call.event .foundation noBuiltins (history .foundation noBuiltins [1] twoScopes).2
      otherKey).2.guards.find ("dev", "first scope")).map (·.rootJobId) = some 20 := by
  have hrun := history_run .foundation noBuiltins [1] twoScopes
  obtain ⟨hroot, -, hlive, -⟩ := twoScopes_spec
  generalize (history .foundation noBuiltins [1] twoScopes).2 = db at hrun hroot hlive ⊢
  have hs := Call.event_step .foundation noBuiltins db otherKey
  obtain ⟨g, hfind, hg⟩ := map_eq_some_iff.1 hroot
  rcases ((scope_guard hrun).2.2 _ _ hs).1 "dev" "first scope" g hfind with hfind' | ⟨-, hdone⟩
  · rw [hfind', map_some, hg]
  · obtain ⟨j, hj, hterminal⟩ := (any_eq_true _ _).1 hlive
    have hnot := hdone g.rootJobId .refl
    rw [hg] at hnot
    exact absurd (.inl ⟨j, hj, by simpa using hterminal⟩) hnot

/-- A key that is bound to the root of one scope answers with that root when it is used for another. -/
theorem bound_key_answers_elsewhere :
    ¬ ∀ es db e db', Run (Step .foundation noBuiltins) (.fresh [1]) es db →
      Step .foundation noBuiltins db e db' → ∀ a scope g r, e.call = .enqueue a →
        a.scope = some scope → db.guards.find (a.env, scope) = some g → e.reply = some r →
          AnswersHolder db a g r := by
  intro hall
  have hrun := history_run .foundation noBuiltins [1] twoScopes
  obtain ⟨-, hroot, -, hreply⟩ := twoScopes_spec
  generalize (history .foundation noBuiltins [1] twoScopes).2 = db at hrun hroot hreply
  have hstep := Call.event_step .foundation noBuiltins db otherKey
  have hcall := Call.event_call .foundation noBuiltins db otherKey
  obtain ⟨g, hfind, hg⟩ := map_eq_some_iff.1 hroot
  obtain ⟨r, hr, hjob⟩ := map_eq_some_iff.1 hreply
  obtain ⟨⟨j, hj, hrj⟩, -⟩ := hall _ db _ _ hrun hstep _ "second scope" g r hcall rfl hfind hr
  have hid : j.jobId = g.rootJobId := congrArg Prod.snd (Table.find_eq_some.1 hj).2
  rw [hrj, map_some, hid, hg] at hjob
  exact absurd hjob (by decide)

end Polis.Delphi
