import Polis.Poller.WorkerPool
import Polis.Common.Run

/-!
# What the worker pool guarantees

A zid has a run exactly while it is active, a queued message keeps it active, and every queued
message is taken by one drain or one park, in the order of submission. A drained batch reaches
`process_fn` exactly when it has work.

Reference: `polismath/poller/worker_pool.py`.
-/

namespace Polis.Poller

open List Function PoolState

variable {ν μ σ : Type*} {s s' : PoolState ν μ σ} {zid : ℤ}
variable {begin : σ} {e : PoolEvent ν μ σ}

/-! ## Coalescing -/

/-- A coalesced batch has the rows of each type in message order, and remembers whether there was a
rebuild or a backfill request. -/
theorem coalesceMessages_eq (messages : List (Message ν μ)) :
    coalesceMessages messages =
      { votes := messages.flatMap Message.voteRows
        moderation := messages.flatMap Message.moderationRows
        rebuild := messages.any fun m => m matches .rebuild
        backfill := messages.any fun m => m matches .backfill } := by
  have hfold : ∀ b : CoalescedBatch ν μ, messages.foldl CoalescedBatch.add b =
      { votes := b.votes ++ messages.flatMap Message.voteRows
        moderation := b.moderation ++ messages.flatMap Message.moderationRows
        rebuild := b.rebuild || messages.any fun m => m matches .rebuild
        backfill := b.backfill || messages.any fun m => m matches .backfill } := by
    induction messages with
    | nil => simp
    | cons m messages ih =>
      intro b
      rw [foldl_cons, ih]
      cases m <;> simp [CoalescedBatch.add, Message.voteRows, Message.moderationRows]
  simpa [coalesceMessages] using hfold {}

/-! ## Well-formed pools -/

/-- What holds between critical sections. -/
structure PoolState.WellFormed (s : PoolState ν μ σ) : Prop where
  runs_active : ∀ zid, (s.runs zid).length = if zid ∈ s.active then 1 else 0
  queued_active : ∀ zid, s.queues zid ≠ [] → zid ∈ s.active
  parked_empty : ∀ zid ∈ s.parked, s.queues zid = []
  live_mark : ∀ zid, (s.queuedLive zid).isSome = (s.queues zid).any Message.isLive

namespace PoolState

theorem WellFormed.init : (init : PoolState ν μ σ).WellFormed where
  runs_active _ := rfl
  queued_active _ h := absurd rfl h
  parked_empty _ _ := rfl
  live_mark _ := rfl

section

variable (h : s.WellFormed)
include h

/-- A run of a zid is its only one. -/
theorem WellFormed.only_run {before after : List (Stage ν μ σ)}
    {stage : Stage ν μ σ} (hruns : s.runs zid = before ++ stage :: after) :
    before = [] ∧ after = [] := by
  have hlen := h.runs_active zid
  rw [hruns, length_append, length_cons] at hlen
  constructor <;> refine length_eq_zero_iff.1 ?_ <;> split at hlen <;> omega

/-- A zid with a run is active. -/
theorem WellFormed.active_of_run (hruns : s.runs zid ≠ []) :
    zid ∈ s.active := by
  by_contra hactive
  have hlen := h.runs_active zid
  rw [if_neg hactive] at hlen
  exact hruns (length_eq_zero_iff.1 hlen)

/-- A run that moves is the only run of its zid, and its zid is active. -/
theorem WellFormed.moves {stage stage' : Stage ν μ σ}
    {runs' : ℤ → List (Stage ν μ σ)} (hm : s.Moves zid stage stage' runs') :
    zid ∈ s.active ∧ s.runs zid = [stage] ∧ runs' = update s.runs zid [stage'] := by
  obtain ⟨before, after, hruns, rfl⟩ := hm
  obtain ⟨rfl, rfl⟩ := h.only_run hruns
  exact ⟨h.active_of_run (by simp [hruns]), hruns, rfl⟩

/-- Moving the run of an active zid keeps a pool well formed. -/
theorem WellFormed.set_run (hactive : zid ∈ s.active) (stage : Stage ν μ σ) :
    ({ s with runs := update s.runs zid [stage] } : PoolState ν μ σ).WellFormed where
  runs_active zid' := by
    by_cases hz : zid' = zid
    · simp [hz, hactive]
    · simpa [hz] using h.runs_active zid'
  queued_active := h.queued_active
  parked_empty := h.parked_empty
  live_mark := h.live_mark

theorem WellFormed.submit (message : Message ν μ) (now : ℤ) :
    (s.submit zid message now).WellFormed := by
  unfold PoolState.submit
  by_cases hacc : s.accepts zid
  · rw [if_pos hacc]
    refine ⟨fun zid' => ?_, fun zid' => ?_, fun zid' => ?_, fun zid' => ?_⟩
    · by_cases hz : zid' = zid
      · subst hz
        have hlen := h.runs_active zid'
        by_cases hactive : zid' ∈ s.active
        · simpa [hactive] using hlen
        · simpa [hactive] using hlen
      · have hlen := h.runs_active zid'
        by_cases hactive : zid ∈ s.active <;> simpa [hactive, hz] using hlen
    · by_cases hz : zid' = zid
      · simp [hz]
      · simpa [hz] using h.queued_active zid'
    · by_cases hz : zid' = zid
      · exact fun hp => absurd (hz ▸ hp) hacc.2
      · simpa [hz] using h.parked_empty zid'
    · have hmark := h.live_mark zid'
      by_cases hz : zid' = zid
      · subst hz
        cases hlive : message.isLive <;> simp [setDefault, hlive, hmark]
      · cases hlive : message.isLive <;> simp [setDefault, hz, hmark]
  · rwa [if_neg hacc]

theorem WellFormed.park : (s.park zid).WellFormed where
  runs_active := h.runs_active
  queued_active zid' := by
    by_cases hz : zid' = zid
    · simp [PoolState.park, hz]
    · simpa [PoolState.park, hz] using h.queued_active zid'
  parked_empty zid' := by
    by_cases hz : zid' = zid
    · simp [PoolState.park, hz]
    · simpa [PoolState.park, hz] using h.parked_empty zid'
  live_mark zid' := by
    by_cases hz : zid' = zid
    · simp [PoolState.park, pop, hz]
    · simpa [PoolState.park, pop, hz] using h.live_mark zid'

theorem WellFormed.unpark : (s.unpark zid).WellFormed where
  runs_active := h.runs_active
  queued_active := h.queued_active
  parked_empty _ hp := h.parked_empty _ (Finset.mem_of_mem_erase hp)
  live_mark := h.live_mark

theorem WellFormed.drain (now : ℤ) : (s.drain zid now).WellFormed where
  runs_active := h.runs_active
  queued_active zid' := by
    by_cases hz : zid' = zid
    · simp [PoolState.drain, hz]
    · simpa [PoolState.drain, hz] using h.queued_active zid'
  parked_empty zid' := by
    by_cases hz : zid' = zid
    · simp [PoolState.drain, hz]
    · simpa [PoolState.drain, hz] using h.parked_empty zid'
  live_mark zid' := by
    by_cases hz : zid' = zid
    · simp [PoolState.drain, pop, hz]
    · simpa [PoolState.drain, pop, hz] using h.live_mark zid'

/-- A run that ends leaves its zid without a run and without a queue. -/
theorem WellFormed.release :
    ({ s.release zid with runs := update s.runs zid [] } :
      PoolState ν μ σ).WellFormed where
  runs_active zid' := by
    by_cases hz : zid' = zid
    · simp [PoolState.release, hz]
    · simpa [PoolState.release, hz] using h.runs_active zid'
  queued_active zid' := by
    by_cases hz : zid' = zid
    · simp [PoolState.release, hz]
    · simpa [PoolState.release, hz] using h.queued_active zid'
  parked_empty zid' := by
    by_cases hz : zid' = zid
    · simp [PoolState.release, hz]
    · simpa [PoolState.release, hz] using h.parked_empty zid'
  live_mark zid' := by
    by_cases hz : zid' = zid
    · simp [PoolState.release, pop, hz]
    · simpa [PoolState.release, pop, hz] using h.live_mark zid'

/-- Every step keeps a pool well formed. -/
theorem WellFormed.step (hs : s.Step begin e s') :
    s'.WellFormed := by
  cases e with
  | submit zid message now queued =>
    obtain ⟨-, rfl⟩ := hs
    exact h.submit message now
  | park zid dropped =>
    obtain ⟨-, rfl⟩ := hs
    exact h.park
  | unpark zid =>
    obtain rfl := hs
    exact h.unpark
  | disposeUnresolved | shutdown =>
    obtain rfl := hs
    exact { h with }
  | drain zid now messages =>
    obtain ⟨-, -, -, runs', hm, rfl⟩ := hs
    obtain ⟨hactive, -, rfl⟩ := h.moves hm
    exact (h.drain now).set_run (s := s.drain zid now) hactive _
  | release zid =>
    obtain ⟨-, before, after, hruns, rfl⟩ := hs
    obtain ⟨rfl, rfl⟩ := h.only_run hruns
    exact h.release
  | work zid =>
    obtain ⟨batch, live, work, work', runs', hm, rfl⟩ := hs
    obtain ⟨hactive, -, rfl⟩ := h.moves hm
    exact h.set_run hactive _
  | finish zid batch outcome =>
    obtain ⟨live, work, runs', hm, rfl⟩ := hs
    obtain ⟨hactive, -, rfl⟩ := h.moves hm
    exact h.set_run hactive _
  | settle zid outcome live =>
    obtain ⟨runs', hm, rfl⟩ := hs
    obtain ⟨hactive, -, rfl⟩ := h.moves hm
    have hset := h.set_run hactive (.waiting : Stage ν μ σ)
    unfold settle
    split
    · exact { hset with }
    · exact hset

end

end PoolState

theorem run_wellFormed {es : List (PoolEvent ν μ σ)} (h : Run (PoolState.Step begin) .init es s) :
    s.WellFormed :=
  h.keeps PoolState.WellFormed .init fun _ _ _ hwf hs => hwf.step hs

/-! ## Where the messages go -/

section

variable (es : List (PoolEvent ν μ σ))
include es

theorem accepted_snoc (e : PoolEvent ν μ σ) :
    accepted zid (es ++ [e]) = accepted zid es ++ accepted zid [e] :=
  filterMap_append

theorem taken_snoc (e : PoolEvent ν μ σ) :
    taken zid (es ++ [e]) = taken zid es ++ taken zid [e] :=
  filterMap_append

theorem drained_snoc (e : PoolEvent ν μ σ) :
    drained zid (es ++ [e]) = drained zid es ++ drained zid [e] := by
  simp [drained, taken_snoc]

theorem processed_snoc (e : PoolEvent ν μ σ) :
    processed zid (es ++ [e]) = processed zid es ++ processed zid [e] :=
  filterMap_append

end

/-- The messages queued for a zid, in order, are those that drains and parks took and those still
in its queue. -/
def Accounted (zid : ℤ) (es : List (PoolEvent ν μ σ)) (s : PoolState ν μ σ) : Prop :=
  accepted zid es = (taken zid es).flatMap Prod.snd ++ s.queues zid

/-- The drained batches that have work, in order, are those `process_fn` returned from and the one
it is in. -/
def Delivered (zid : ℤ) (es : List (PoolEvent ν μ σ)) (s : PoolState ν μ σ) : Prop :=
  ((drained zid es).map coalesceMessages).filter CoalescedBatch.hasWork =
    processed zid es ++ s.inProcess zid

/-- One event moves messages from the queue to what was taken, or adds to the queue. -/
theorem Accounted.step {es : List (PoolEvent ν μ σ)}
    (hwf : s.WellFormed) (h : Accounted zid es s) (hs : s.Step begin e s') :
    Accounted zid (es ++ [e]) s' := by
  unfold Accounted at h ⊢
  rw [accepted_snoc, taken_snoc, flatMap_append, h]
  cases e with
  | submit zid' message now queued =>
    obtain ⟨rfl, rfl⟩ := hs
    unfold PoolState.submit
    by_cases hacc : s.accepts zid'
    · by_cases hz : zid' = zid
      · subst hz
        simp [accepted, taken, hacc]
      · simp [accepted, taken, hacc, hz, Ne.symm hz]
    · simp [accepted, taken, hacc]
  | park zid' dropped =>
    obtain ⟨rfl, rfl⟩ := hs
    by_cases hz : zid' = zid
    · subst hz
      simp [accepted, taken, park]
    · simp [accepted, taken, park, hz, Ne.symm hz]
  | drain zid' now messages =>
    obtain ⟨rfl, -, -, runs', -, rfl⟩ := hs
    by_cases hz : zid' = zid
    · subst hz
      simp [accepted, taken, drain]
    · simp [accepted, taken, drain, hz, Ne.symm hz]
  | release zid' =>
    obtain ⟨hempty, before, after, -, rfl⟩ := hs
    by_cases hz : zid' = zid
    · subst hz
      -- nothing is lost: a parked zid has an empty queue
      have hnil : s.queues zid' = [] := hempty.elim id (hwf.parked_empty zid')
      simp [accepted, taken, release, hnil]
    · simp [accepted, taken, release, Ne.symm hz]
  | unpark zid' =>
    obtain rfl := hs
    simp [accepted, taken, unpark]
  | disposeUnresolved zid' =>
    obtain rfl := hs
    simp [accepted, taken, disposeUnresolved]
  | shutdown =>
    obtain rfl := hs
    simp [accepted, taken, shutdown]
  | work zid' =>
    obtain ⟨batch, live, work, work', runs', -, rfl⟩ := hs
    simp [accepted, taken]
  | finish zid' batch outcome =>
    obtain ⟨live, work, runs', -, rfl⟩ := hs
    simp [accepted, taken]
  | settle zid' outcome live =>
    obtain ⟨runs', -, rfl⟩ := hs
    unfold settle
    split <;> simp [accepted, taken]

/-- The batches in process before and after a run of a zid moved. -/
private theorem inProcess_set_run (zid : ℤ) {zid' : ℤ} {stage stage' : Stage ν μ σ}
    (s' : PoolState ν μ σ)
    (hone : s.runs zid' = [stage]) (hruns : s'.runs = update s.runs zid' [stage']) :
    (zid' ≠ zid → s'.inProcess zid = s.inProcess zid) ∧
    s'.inProcess zid' = stage'.batch?.toList ∧ s.inProcess zid' = stage.batch?.toList := by
  refine ⟨fun hz => ?_, ?_, ?_⟩
  · rw [inProcess, hruns, update_of_ne (Ne.symm hz), inProcess]
  · rw [inProcess, hruns, update_self]
    cases stage' <;> rfl
  · rw [inProcess, hone]
    cases stage <;> rfl

/-- One event keeps the drained batches with work accounted for. -/
theorem Delivered.step {es : List (PoolEvent ν μ σ)}
    (hwf : s.WellFormed) (h : Delivered zid es s) (hs : s.Step begin e s') :
    Delivered zid (es ++ [e]) s' := by
  unfold Delivered at h ⊢
  rw [drained_snoc, processed_snoc, map_append, filter_append, h]
  cases e with
  | submit zid' message now queued =>
    obtain ⟨rfl, rfl⟩ := hs
    have hin : (s.submit zid' message now).inProcess zid = s.inProcess zid := by
      unfold PoolState.submit inProcess
      by_cases hacc : s.accepts zid'
      · by_cases hactive : zid' ∈ s.active
        · simp [hacc, hactive]
        · by_cases hz : zid = zid'
          · simp [hacc, hactive, hz, filterMap_append]
          · simp [hacc, hactive, hz]
      · simp [hacc]
    simp [drained, taken, processed, hin]
  | park zid' dropped =>
    obtain ⟨rfl, rfl⟩ := hs
    by_cases hz : zid' = zid <;>
      simp [drained, taken, processed, park, inProcess, hz]
  | drain zid' now messages =>
    obtain ⟨rfl, -, -, runs', hm, rfl⟩ := hs
    obtain ⟨-, hone, hruns⟩ := hwf.moves hm
    obtain ⟨hother, hnew, hold⟩ := inProcess_set_run zid
      { s.drain zid' now with runs := runs' } hone hruns
    by_cases hz : zid' = zid
    · subst hz
      rw [hnew, hold]
      unfold Stage.afterDrain
      by_cases hwork : (coalesceMessages (s.queues zid')).hasWork = true <;>
        simp [drained, taken, processed, hwork]
    · rw [hother hz]
      simp [drained, taken, processed, hz]
  | release zid' =>
    obtain ⟨-, before, after, hruns, rfl⟩ := hs
    by_cases hz : zid = zid'
    · subst hz
      simp [drained, taken, processed, inProcess, hruns, filterMap_cons]
    · simp [drained, taken, processed, inProcess, hz]
  | unpark zid' =>
    obtain rfl := hs
    simp [drained, taken, processed, inProcess, unpark]
  | disposeUnresolved zid' =>
    obtain rfl := hs
    simp [drained, taken, processed, inProcess, disposeUnresolved]
  | shutdown =>
    obtain rfl := hs
    simp [drained, taken, processed, inProcess, shutdown]
  | work zid' =>
    obtain ⟨batch, live, work, work', runs', hm, rfl⟩ := hs
    obtain ⟨-, hone, hruns⟩ := hwf.moves hm
    obtain ⟨hother, hnew, hold⟩ := inProcess_set_run zid
      { s with runs := runs' } hone hruns
    by_cases hz : zid' = zid
    · subst hz
      simp [drained, taken, processed, hnew, hold]
    · simp [drained, taken, processed, hother hz]
  | finish zid' batch outcome =>
    obtain ⟨live, work, runs', hm, rfl⟩ := hs
    obtain ⟨-, hone, hruns⟩ := hwf.moves hm
    obtain ⟨hother, hnew, hold⟩ := inProcess_set_run zid
      { s with runs := runs' } hone hruns
    by_cases hz : zid' = zid
    · subst hz
      simp [drained, taken, processed, hnew, hold]
    · simp [drained, taken, processed, hother hz, hz]
  | settle zid' outcome live =>
    obtain ⟨runs', hm, rfl⟩ := hs
    obtain ⟨-, hone, hruns⟩ := hwf.moves hm
    obtain ⟨hother, hnew, hold⟩ := inProcess_set_run zid
      { s.settle zid' outcome live with runs := runs' } hone hruns
    by_cases hz : zid' = zid
    · subst hz
      simp [drained, taken, processed, hnew, hold]
    · simp [drained, taken, processed, hother hz]

/-- Every message that was queued is accounted for at the end of every run, and so is every drained
batch with work. -/
theorem run_accounted {es : List (PoolEvent ν μ σ)}
    (h : Run (PoolState.Step begin) .init es s) (zid : ℤ) :
    Accounted zid es s ∧ Delivered zid es s := by
  have h₀ : Accounted zid [] (.init : PoolState ν μ σ) := rfl
  have h₁ : Delivered zid [] (.init : PoolState ν μ σ) := rfl
  exact h.invariant (fun es s => Accounted zid es s ∧ Delivered zid es s) ⟨h₀, h₁⟩
    fun _ _ _ _ hrun hi hs =>
      ⟨hi.1.step (run_wellFormed hrun) hs, hi.2.step (run_wellFormed hrun) hs⟩

/-! ## Wake-ups and marks -/

/-- The steps a run of the zid takes before it looks at its queue. -/
def PoolEvent.Finishes (zid : ℤ) : PoolEvent ν μ σ → Prop
  | .finish zid' _ _ => zid' = zid
  | .settle zid' _ _ => zid' = zid
  | _ => False

/-- A queued message is drained by the steps of its zid's run alone. -/
theorem PoolState.WellFormed.drains (h : s.WellFormed) (hqueue : s.queues zid ≠ []) (now : ℤ) :
    ∃ es s', (∀ e ∈ es, PoolEvent.Finishes zid e) ∧
      Run (PoolState.Step begin) s (es ++ [.drain zid now (s.queues zid)]) s' := by
  have hactive := h.queued_active zid hqueue
  have hparked : zid ∉ s.parked := fun hp => hqueue (h.parked_empty zid hp)
  have hlen := h.runs_active zid
  rw [if_pos hactive] at hlen
  obtain ⟨stage, hone⟩ := length_eq_one_iff.1 hlen
  -- from the top of the loop the run drains
  have hdrain : ∀ s : PoolState ν μ σ, s.queues zid ≠ [] → zid ∉ s.parked →
      s.runs zid = [.waiting] →
      ∃ s', s.Step begin (.drain zid now (s.queues zid)) s' := fun s hqueue hparked hone =>
    ⟨_, rfl, hqueue, hparked, _, ⟨[], [], hone, rfl⟩, rfl⟩
  -- back from `process_fn` it reaches the top
  have hsettle : ∀ (s : PoolState ν μ σ) (outcome : Option Bool) (live : Bool),
      s.runs zid = [.returned outcome live] →
      ∃ s₁, s.Step begin (.settle zid outcome live) s₁ ∧ s₁.runs zid = [.waiting] ∧
        s₁.queues = s.queues ∧ s₁.parked = s.parked := fun s outcome live hone => by
    refine ⟨_, ⟨_, ⟨[], [], hone, rfl⟩, rfl⟩, by simp, ?_, ?_⟩ <;>
      · unfold settle
        split <;> rfl
  cases stage with
  | waiting =>
    obtain ⟨s', hs'⟩ := hdrain s hqueue hparked hone
    exact ⟨[], s', by simp, .snoc .nil hs'⟩
  | returned outcome live =>
    obtain ⟨s₁, hs₁, hone₁, hq, hp⟩ := hsettle s outcome live hone
    obtain ⟨s', hs'⟩ := hdrain s₁ (by rwa [hq]) (by rwa [hp]) hone₁
    rw [hq] at hs'
    exact ⟨[.settle zid outcome live], s', by simp [PoolEvent.Finishes],
      .snoc (.snoc .nil hs₁) hs'⟩
  | processing batch live work =>
    have hfinish : s.Step begin (.finish zid batch none)
        { s with runs := update s.runs zid [.returned none live] } :=
      ⟨live, work, _, ⟨[], [], hone, rfl⟩, rfl⟩
    obtain ⟨s₁, hs₁, hone₁, hq, hp⟩ := hsettle
      { s with runs := update s.runs zid [.returned none live] } none live (by simp)
    obtain ⟨s', hs'⟩ := hdrain s₁ (by rwa [hq]) (by rwa [hp]) hone₁
    rw [hq] at hs'
    exact ⟨[.finish zid batch none, .settle zid none live], s', by simp [PoolEvent.Finishes],
      .snoc (.snoc (.snoc .nil hfinish) hs₁) hs'⟩

/-- A mark goes only with a disposition, or when a live run with an outcome other than `False` is
settled while the zid is not parked and has no live message queued. -/
theorem PoolState.WellFormed.mark_removed (h : s.WellFormed)
    (hs : s.Step begin e s') (hset : s.unresolvedLive zid ≠ none)
    (hgone : s'.unresolvedLive zid = none) :
    e = .disposeUnresolved zid ∨
    ∃ outcome, e = .settle zid outcome true ∧ outcome ≠ some false ∧ zid ∉ s.parked ∧
      ∀ m ∈ s.queues zid, m.isLive = false := by
  cases e with
  | submit zid' message now queued =>
    obtain ⟨-, rfl⟩ := hs
    unfold PoolState.submit at hgone
    split at hgone
    · by_cases hz : zid = zid'
      · subst hz
        cases hlive : message.isLive <;> simp [hlive, setDefault, hset] at hgone
      · cases hlive : message.isLive <;> simp [hlive, setDefault, hset, hz] at hgone
    · exact absurd hgone hset
  | disposeUnresolved zid' =>
    obtain rfl := hs
    by_cases hz : zid = zid'
    · exact .inl (by rw [hz])
    · simp [disposeUnresolved, pop, hz, hset] at hgone
  | settle zid' outcome live =>
    obtain ⟨runs', -, rfl⟩ := hs
    unfold settle at hgone
    split at hgone
    · next hcond =>
        obtain ⟨rfl, houtcome, hparked⟩ := hcond
        by_cases hz : zid = zid'
        · subst hz
          refine .inr ⟨outcome, rfl, houtcome, hparked, fun m hm => ?_⟩
          have hmark := h.live_mark zid
          simp only [update_self] at hgone
          rw [hgone, Option.isSome_none] at hmark
          by_contra hlive
          exact any_eq_false.1 hmark.symm m hm (by simpa using hlive)
        · simp [hz, hset] at hgone
    · exact absurd hgone hset
  | park zid' dropped =>
    obtain ⟨-, rfl⟩ := hs
    exact absurd hgone hset
  | unpark | shutdown =>
    obtain rfl := hs
    exact absurd hgone hset
  | drain zid' now messages =>
    obtain ⟨-, -, -, runs', -, rfl⟩ := hs
    exact absurd hgone hset
  | release zid' =>
    obtain ⟨-, before, after, -, rfl⟩ := hs
    exact absurd hgone hset
  | work zid' =>
    obtain ⟨batch, live, work, work', runs', -, rfl⟩ := hs
    exact absurd hgone hset
  | finish zid' batch outcome =>
    obtain ⟨live, work, runs', -, rfl⟩ := hs
    exact absurd hgone hset

/-! ## The contract -/

/-- A queued message is in the next drain of its zid, behind what was queued before it and ahead of
what was queued after it, unless a park comes first. -/
theorem drained_in_order {pre mid : List (PoolEvent ν μ σ)}
    {message : Message ν μ} {now now' : ℤ} {messages : List (Message ν μ)}
    (hrun : Run (PoolState.Step begin) .init
    ((pre ++ .submit zid message now true :: mid) ++ [.drain zid now' messages]) s)
    (hmid : taken zid mid = []) :
    ∃ earlier, messages = earlier ++ message :: accepted zid mid := by
  obtain ⟨s₁, hrun₁, hdrain⟩ := hrun.snoc_inv
  obtain ⟨rfl, -⟩ := hdrain
  obtain ⟨s₀, hrun₀⟩ := hrun₁.prefix_run
  have hpre := (run_accounted hrun₀ zid).1
  have hall := (run_accounted hrun₁ zid).1
  unfold Accounted at hpre hall
  have htaken : taken zid (pre ++ .submit zid message now true :: mid) = taken zid pre := by
    simp only [taken, filterMap_append, filterMap_cons] at hmid ⊢
    rw [hmid, append_nil]
  have haccepted : accepted zid (pre ++ .submit zid message now true :: mid) =
      accepted zid pre ++ message :: accepted zid mid := by
    simp [accepted]
  rw [haccepted, htaken, hpre, append_assoc] at hall
  exact ⟨_, (append_cancel_left hall).symm⟩

/-- The contract of the pool, in every state of every run. A zid has at most one run. A queued
message is drained by the steps of that run alone. Every message that was queued is taken by one
drain or one park or is still queued, in submission order; the drained messages are merged into one
batch, and the batches with work are those `process_fn` gets, in order. An unresolved mark goes only
with a disposition or with a live run that is settled with an outcome other than `False` (`None`
when there was no work), while the zid is not parked and no live message is queued. -/
theorem pool_contract {begin : σ} {es : List (PoolEvent ν μ σ)}
    (hrun : Run (PoolState.Step begin) .init es s) (zid : ℤ) :
    (s.runs zid).length ≤ 1 ∧
    (s.queues zid ≠ [] → zid ∈ s.active ∧
      ∀ now, ∃ es' s', (∀ e ∈ es', PoolEvent.Finishes zid e) ∧
        Run (PoolState.Step begin) s (es' ++ [.drain zid now (s.queues zid)]) s') ∧
    (accepted zid es = (taken zid es).flatMap Prod.snd ++ s.queues zid ∧
      (∀ pre message now mid now' messages,
        es = (pre ++ .submit zid message now true :: mid) ++ [.drain zid now' messages] →
        taken zid mid = [] → ∃ earlier, messages = earlier ++ message :: accepted zid mid) ∧
      ((drained zid es).map coalesceMessages).filter CoalescedBatch.hasWork =
        processed zid es ++ s.inProcess zid ∧
      ∀ messages ∈ drained zid es,
        (coalesceMessages messages).votes = messages.flatMap Message.voteRows ∧
        (coalesceMessages messages).moderation = messages.flatMap Message.moderationRows) ∧
    (∀ e s', s.Step begin e s' → s.unresolvedLive zid ≠ none → s'.unresolvedLive zid = none →
      e = .disposeUnresolved zid ∨
      ∃ outcome, e = .settle zid outcome true ∧ outcome ≠ some false ∧ zid ∉ s.parked ∧
        ∀ m ∈ s.queues zid, m.isLive = false) := by
  have hwf := run_wellFormed hrun
  obtain ⟨haccounted, hdelivered⟩ := run_accounted hrun zid
  refine ⟨?_, fun hqueue => ⟨hwf.queued_active zid hqueue, hwf.drains hqueue⟩,
    ⟨haccounted, fun pre message now mid now' messages hes hmid => ?_, hdelivered,
      fun messages _ => ?_⟩,
    fun e s' hs => hwf.mark_removed hs⟩
  · rw [hwf.runs_active]
    split <;> omega
  · exact drained_in_order (hes ▸ hrun) hmid
  · rw [coalesceMessages_eq]
    exact ⟨rfl, rfl⟩

private def queuedPool : PoolState ℤ ℤ Unit := init.submit 1 (.votes [5]) 10

/-- One vote batch is queued, and its zid gets a run. -/
theorem pool_contract_one_batch :
    (queuedPool.runs 1).length ≤ 1 ∧ (1 : ℤ) ∈ queuedPool.active ∧
    accepted 1 [(.submit 1 (.votes [5]) 10 true : PoolEvent ℤ ℤ Unit)] = queuedPool.queues 1 := by
  have hrun : Run (PoolState.Step ()) .init [.submit 1 (.votes [5]) 10 true] queuedPool :=
    .snoc .nil ⟨rfl, rfl⟩
  obtain ⟨hone, hqueue, ⟨haccepted, -⟩, -⟩ := pool_contract hrun 1
  exact ⟨hone, (hqueue (by decide)).1, haccepted⟩

private def emptyQueued : PoolState ℤ ℤ Unit := init.submit 1 (.votes []) 10

private def emptyDrained : PoolState ℤ ℤ Unit :=
  { emptyQueued.drain 1 11 with
    runs := update emptyQueued.runs 1 [.returned none true] }

private def emptySettled : PoolState ℤ ℤ Unit :=
  { emptyDrained.settle 1 none true with
    runs := update emptyDrained.runs 1 [.waiting] }

private def emptyReleased : PoolState ℤ ℤ Unit :=
  { emptySettled.release 1 with runs := update emptySettled.runs 1 [] }

/-- An empty vote batch is queued and drained, never parked, and `process_fn` never gets it; the run
that drained it takes the unresolved mark away with it. -/
theorem empty_batch_not_delivered :
    ∃ (es : List (PoolEvent ℤ ℤ Unit)) (s : PoolState ℤ ℤ Unit),
      Run (PoolState.Step ()) .init es s ∧
      .submit 1 (.votes []) 10 true ∈ es ∧ (∀ dropped, .park 1 dropped ∉ es) ∧
      .disposeUnresolved 1 ∉ es ∧
      drained 1 es = [[.votes []]] ∧ processed 1 es = [] ∧ s.inProcess 1 = [] ∧
      s.queues 1 = [] ∧ s.active = ∅ ∧ s.unresolvedLive 1 = none := by
  have h₁ : Run (PoolState.Step ()) (.init : PoolState ℤ ℤ Unit)
      [.submit 1 (.votes []) 10 true] emptyQueued := .snoc .nil ⟨rfl, rfl⟩
  have h₂ : Run (PoolState.Step ()) (.init : PoolState ℤ ℤ Unit)
      [.submit 1 (.votes []) 10 true, .drain 1 11 [.votes []]] emptyDrained :=
    .snoc h₁ ⟨rfl, by simp, by decide, _, ⟨[], [], rfl, rfl⟩, rfl⟩
  have h₃ : Run (PoolState.Step ()) (.init : PoolState ℤ ℤ Unit)
      [.submit 1 (.votes []) 10 true, .drain 1 11 [.votes []], .settle 1 none true]
      emptySettled := .snoc h₂ ⟨_, ⟨[], [], rfl, rfl⟩, rfl⟩
  have h₄ : Run (PoolState.Step ()) (.init : PoolState ℤ ℤ Unit)
      [.submit 1 (.votes []) 10 true, .drain 1 11 [.votes []], .settle 1 none true, .release 1]
      emptyReleased := .snoc h₃ ⟨.inl rfl, [], [], rfl, rfl⟩
  exact ⟨_, _, h₄, by simp, by simp, by simp, rfl, rfl, rfl, rfl, by decide, rfl⟩

end Polis.Poller
