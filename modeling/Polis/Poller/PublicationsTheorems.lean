import Polis.Poller.Publications

/-!
# Publications of a label are serial

The tick of a label is locked from the first statement of a publication to its end, so the bundle that a
publication checks, or copies from a staged label whose tick it shares, is the committed one when it commits.
-/

set_option linter.unusedSectionVars false

namespace Polis.Poller.Publications

open Sql Function Option

variable {τ : Type} [DecidableEq τ]
variable {x : Sight} {y : Payloads}

/-! ## Ticks of bundles -/

/-- The tick of a label; before its first publication it is -1. -/
def tickOf (x : Bundle) : ℤ := (x.k.map (·.mathTick)).getD (-1)

/-- The tick of a mark that a backfill has read. -/
def markTick (seen : Option (ℤ × ℤ)) : ℤ := (seen.map Prod.fst).getD (-1)

theorem atTick_iff {x : Bundle} {tick : ℤ} : x.atTick tick = true ↔
    ∃ m b p k, x = ⟨some m, some b, some p, some k⟩ ∧ m.mathTick = tick ∧ b.mathTick = tick ∧
      p.mathTick = tick ∧ k.mathTick = tick := by
  obtain ⟨m, b, p, k⟩ := x
  cases m <;> cases b <;> cases p <;> cases k <;> simp [Bundle.atTick, and_assoc]

theorem OneTick.mark {x : Bundle} (h : x.OneTick) : markTick x.mark = tickOf x := by
  rcases h with ⟨hm, -, -, hk⟩ | ⟨tick, h⟩
  · simp [markTick, Bundle.mark, tickOf, hm, hk]
  · obtain ⟨m, b, p, k, rfl, hm, -, -, hk⟩ := atTick_iff.1 h
    simp [markTick, Bundle.mark, tickOf, hm, hk]

theorem OneTick.fingerprint {x : Bundle} {f : Fingerprint} (h : x.OneTick) (hf : x.fingerprint = some f) :
    f.mathTick = tickOf x ∧ x.k.isSome := by
  rcases h with ⟨hm, -, -, -⟩ | ⟨tick, h⟩
  · simp [Bundle.fingerprint, hm] at hf
  · obtain ⟨m, b, p, k, rfl, hm, -, -, hk⟩ := atTick_iff.1 h
    obtain rfl : _ = f := by simpa [Bundle.fingerprint] using hf
    simp [tickOf, hm, hk]

/-- The tick of the target that a caller has seen. -/
def targetTick (f : Option Fingerprint) : ℤ := (f.map (·.mathTick)).getD (-1)

theorem OneTick.targetTick {x : Bundle} (h : x.OneTick) : targetTick x.fingerprint = tickOf x := by
  cases hf : x.fingerprint with
  | some f => exact (OneTick.fingerprint h hf).1
  | none =>
    rcases h with ⟨-, -, -, hk⟩ | ⟨tick, h⟩
    · simp [Publications.targetTick, tickOf, hk]
    · obtain ⟨m, b, p, k, rfl, -⟩ := atTick_iff.1 h
      simp [Bundle.fingerprint] at hf

theorem targetTick_eq {f g : Option Fingerprint} (h : fingerprint_key f = fingerprint_key g) :
    targetTick f = targetTick g := by
  cases f with
  | none =>
    cases g with
    | none => rfl
    | some g => simp [fingerprint_key] at h
  | some f =>
    cases g with
    | none => simp [fingerprint_key] at h
    | some g =>
      have hkey : f.key = g.key := by simpa [fingerprint_key] using h
      exact congrArg Prod.fst hkey

/-- What the payloads of a bundle are. -/
def payloadsOf (x : Bundle) : Option Payloads :=
  match x.m, x.b, x.p with
  | some m, some b, some p => some ⟨m.data, m.lastVoteTimestamp, b.data, p.data⟩
  | _, _, _ => none

theorem payloadsOf_eq_some {x : Bundle} : payloadsOf x = some y ↔
    ∃ m b p, x.m = some m ∧ x.b = some b ∧ x.p = some p ∧
      y = ⟨m.data, m.lastVoteTimestamp, b.data, p.data⟩ := by
  obtain ⟨m, b, p, k⟩ := x
  cases m <;> cases b <;> cases p <;> simp [payloadsOf, eq_comm]

theorem complete_payloads {x : Bundle} (h : x.complete = true) : ∃ y, payloadsOf x = some y := by
  obtain ⟨m, b, p, k⟩ := x
  cases m <;> cases b <;> cases p <;> cases k <;> simp_all [Bundle.complete, payloadsOf]

/-! ## What a transaction has written -/

/-- The tick that the transaction has minted. -/
def Stage.tick : Stage → Option ℤ
  | .begun => none
  | .minted n | .shared n | .checked n | .bidtopid n | .ptptstats n | .main n _ | .verified n _ => some n

/-- The companion row is written. -/
def Stage.wrote : Stage → Companion → Bool
  | .bidtopid _, c => c = .bidtopid
  | .ptptstats _, _ | .main _ _, _ | .verified _ _, _ => true
  | _, _ => false

/-- The caching tick of the main row, once it is written. -/
def Stage.caching : Stage → Option ℤ
  | .main _ c | .verified _ c => some c
  | _ => none

/-- The staged tick is shared from here on. -/
def Stage.sharing : Stage → Bool
  | .begun | .minted _ => false
  | _ => true

/-- The bundles are checked from here on. -/
def Stage.past : Stage → Bool
  | .begun | .minted _ | .shared _ => false
  | _ => true

/-- The rows that the transaction has written by now. -/
def draft (y : Payloads) (now : ℤ) (stage : Stage) : ∀ tbl : Tbl, Option tbl.Row
  | .ticks => stage.tick.map fun n => (⟨n, now⟩ : TicksRow)
  | .main => stage.tick.bind fun n => stage.caching.map fun c =>
    (⟨y.lastVoteTimestamp, n, y.main, c, some now⟩ : MainRow)
  | .companion c => if stage.wrote c then
      stage.tick.map fun n => (⟨n, y.companion c, some now⟩ : CompanionRow) else none

/-- The transaction has written just these rows of the label. -/
def Wrote (rows : Tables τ) (t : τ) (label : String) (rs : ∀ tbl : Tbl, Option tbl.Row) : Prop :=
  ∀ k : Key, rows.written t k = if k.1 = label then rs k.2 else none

/-- The transaction has written nothing. -/
def Clean (rows : Tables τ) (t : τ) : Prop := ∀ k, rows.written t k = none

variable {rows : Tables τ} {t u : τ} {label : String} {rs : ∀ tbl : Tbl, Option tbl.Row}

theorem Clean.wrote (h : Clean rows t) (y : Payloads) (now : ℤ) :
    Wrote rows t label (draft y now .begun) := by
  intro k
  rw [h k]
  obtain ⟨env, tbl⟩ := k
  split
  · cases tbl <;> rfl
  · rfl

theorem Wrote.put (h : Wrote rows t label rs) {tbl : Tbl} {v : tbl.Row} :
    Wrote (rows.put t (label, tbl) v) t label (update rs tbl (some v)) := by
  rintro ⟨env, tbl'⟩
  by_cases hk : (env, tbl') = (label, tbl)
  · cases hk
    rw [Rows.written_put_same, if_pos rfl, update_self]
  · rw [Rows.written_put_of_ne hk, h]
    by_cases henv : env = label
    · have htbl : tbl' ≠ tbl := fun htbl => hk (by rw [henv, htbl])
      simp only [henv, if_true, update_of_ne htbl]
    · simp only [if_neg henv]

theorem Wrote.view (h : Wrote rows t label rs) (tbl : Tbl) :
    rows.view t (label, tbl) = (rs tbl).or (rows.committed (label, tbl)) := by
  rw [Rows.view, h, if_pos rfl]

theorem Wrote.view_other (h : Wrote rows t label rs) {env : String} (henv : env ≠ label) (tbl : Tbl) :
    rows.view t (env, tbl) = rows.committed (env, tbl) :=
  Rows.view_of_not_written (by rw [h, if_neg henv])

theorem upsert_eq_some {k : Key} {v : k.2.Row} {rows' : Tables τ} :
    upsert rows t k v = some rows' ↔ rows.Writable t k ∧ rows' = rows.put t k v := by
  unfold upsert
  split
  · next h => simp [h, eq_comm]
  · next h => simp [h]

/-! ## Where each thread stands -/

/-- The queue's job has succeeded, and its manifest, which has the digest that the queue recorded, names the
staged bundle. -/
def Backed (world : World) (s : State τ) (x : Sight) (job : String) : Prop :=
  ∃ status line m, s.queue job = some status ∧ status.state = .succeeded ∧
    status.outputSha256 = some (world.sha256Hex line) ∧ world.loads line = some m ∧
    manifestInputs job m = some (x.src, x.staged.mathTick, x.staged.lvt)

/-- What was seen is as old as the number of publications beside it says, and the staged tick is there. -/
structure Sighted (start : String → ℤ) (s : State τ) (x : Sight) : Prop where
  staged : x.staged.mathTick = start x.src + x.stagedPublished
  target : targetTick x.target = start x.dst + x.targetPublished
  exists_tick : (s.rows.committed (x.src, .ticks)).isSome

/-- The open transaction has written its draft so far, under the lock of the tick above the committed one. -/
structure Writing (s : State τ) (t : τ) (label : String) (y : Payloads) (now : ℤ) (stage : Stage) :
    Prop where
  wrote : Wrote s.rows t label (draft y now stage)
  owner : ∀ n ∈ stage.tick, s.rows.owner (label, .ticks) = some t
  tick : ∀ n ∈ stage.tick, n = tickOf (s.bundle label) + 1

/-- The mark of a backfill is as old as the number of publications beside it says. -/
def Origin.Marked (start : String → ℤ) (label : String) (o : Origin) : Prop :=
  ∀ seen n, o = .backfill seen n → markTick seen = start label + n

/-- A publication between two of its statements. -/
structure Publishing (start : String → ℤ) (s : State τ) (t : τ) (w : Publication) (stage : Stage) :
    Prop where
  writing : Writing s t w.label w.payloads w.now stage
  marked : w.origin.Marked start w.label
  allowed : stage.past = true → w.origin.allows (s.bundle w.label) = true

/-- A promotion between two of its statements. -/
structure Promoting (world : World) (start : String → ℤ) (s : State τ) (t : τ) (p : Promotion)
    (stage : Stage) (y : Payloads) : Prop where
  ne : p.sight.src ≠ p.sight.dst
  sighted : Sighted start s p.sight
  backed : ∀ job, p.caller = .pass job → ∃ j ∈ job, Backed world s p.sight j
  writing : Writing s t p.sight.dst y p.now stage
  shares : stage.sharing = true → t ∈ s.rows.sharers (p.sight.src, .ticks)
  promotable : stage.past = true → p.sight.promotable world.numericIn world.zid (s.bundle p.sight.src)
    (s.bundle p.sight.dst) = true
  payloads : stage.past = true → payloadsOf (s.bundle p.sight.src) = some y

/-- What holds of a thread between its steps. -/
def Standing (world : World) (start : String → ℤ) (s : State τ) (t : τ) : Thread → Prop
  | .idle => Clean s.rows t
  | .rebuilding label seen n => Clean s.rows t ∧ markTick seen = start label + n
  | .publishing w stage => Publishing start s t w stage
  | .sighted x _ => Clean s.rows t ∧ Sighted start s x
  | .bound x job => Clean s.rows t ∧ Sighted start s x ∧ Backed world s x job
  | .promoting p stage => ∃ y, Promoting world start s t p stage y

/-- What holds between the steps: ticks count the publications, and every thread stands where it should. -/
structure Inv (world : World) (start : String → ℤ) (s : State τ) : Prop where
  good : s.rows.Good
  oneTick : ∀ label, (s.bundle label).OneTick
  count : ∀ label, tickOf (s.bundle label) = start label + s.published label
  threads : ∀ t, Standing world start s t (s.threads t)

/-! ## Steps of other threads -/

/-- What the steps of other threads leave to a thread. -/
structure Steady (t : τ) (s s' : State τ) : Prop where
  keeps : Rows.Keeps t s.rows s'.rows
  bundle : ∀ label, s.rows.Holds t (label, .ticks) → s'.bundle label = s.bundle label
  grows : ∀ k, (s.rows.committed k).isSome → (s'.rows.committed k).isSome
  queue : ∀ job status, s.queue job = some status → status.state.terminal = true →
    s'.queue job = some status

section Others

variable {world : World} {start : String → ℤ} {s s' : State τ}

theorem Steady.clean (h : Steady t s s') (hc : Clean s.rows t) : Clean s'.rows t := fun k => by
  rw [h.keeps.written]
  exact hc k

theorem Steady.backed (h : Steady t s s') {job : String} (hb : Backed world s x job) :
    Backed world s' x job := by
  obtain ⟨status, line, m, hqueue, hstate, hrest⟩ := hb
  exact ⟨status, line, m, h.queue job status hqueue (by rw [hstate]; rfl), hstate, hrest⟩

theorem Steady.sighted (h : Steady t s s') (hx : Sighted start s x) : Sighted start s' x :=
  ⟨hx.staged, hx.target, h.grows _ hx.exists_tick⟩

theorem Steady.writing (h : Steady t s s') {now : ℤ} {stage : Stage}
    (hw : Writing s t label y now stage) : Writing s' t label y now stage where
  wrote k := by
    rw [h.keeps.written]
    exact hw.wrote k
  owner n hn := (h.keeps.owner _).2 (hw.owner n hn)
  tick n hn := by
    rw [h.bundle label (.inl (hw.owner n hn))]
    exact hw.tick n hn

/-- A stage past the checks has a tick. -/
theorem Stage.past_tick {stage : Stage} (h : stage.past = true) : ∃ n, stage.tick = some n := by
  cases stage with
  | begun | minted n | shared n => cases h
  | checked n | bidtopid n | ptptstats n | main n c | verified n c => exact ⟨n, rfl⟩

theorem Stage.past_sharing {stage : Stage} (h : stage.past = true) : stage.sharing = true := by
  cases stage with
  | begun | minted n => cases h
  | shared n | checked n | bidtopid n | ptptstats n | main n c | verified n c => rfl

/-- The steps of others leave a thread where it stands. -/
theorem Standing.steady (h : Steady t s s') {x : Thread} (hx : Standing world start s t x) :
    Standing world start s' t x := by
  cases x with
  | idle => exact h.clean hx
  | rebuilding label seen n => exact ⟨h.clean hx.1, hx.2⟩
  | sighted x caller => exact ⟨h.clean hx.1, h.sighted hx.2⟩
  | bound x job => exact ⟨h.clean hx.1, h.sighted hx.2.1, h.backed hx.2.2⟩
  | publishing w stage =>
    refine ⟨h.writing hx.writing, hx.marked, fun hpast => ?_⟩
    obtain ⟨n, hn⟩ := Stage.past_tick hpast
    rw [h.bundle _ (.inl (hx.writing.owner n hn))]
    exact hx.allowed hpast
  | promoting p stage =>
    obtain ⟨y, hx⟩ := hx
    have hsrc : stage.past = true → s'.bundle p.sight.src = s.bundle p.sight.src := fun hpast =>
      h.bundle _ (.inr (hx.shares (Stage.past_sharing hpast)))
    refine ⟨y, hx.ne, h.sighted hx.sighted, fun job hjob => ?_, h.writing hx.writing, fun hs => ?_,
      fun hpast => ?_, fun hpast => ?_⟩
    · obtain ⟨j, hj, hb⟩ := hx.backed job hjob
      exact ⟨j, hj, h.backed hb⟩
    · exact (h.keeps.sharers _).2 (hx.shares hs)
    · obtain ⟨n, hn⟩ := Stage.past_tick hpast
      rw [hsrc hpast, h.bundle _ (.inl (hx.writing.owner n hn))]
      exact hx.promotable hpast
    · rw [hsrc hpast]
      exact hx.payloads hpast

end Others

/-! ## Receipts -/

section Receipts

variable {sha256Hex : String → String} {loads : String → Option (Json PyNumber)} {job label : String}
  {status : JobStatus} {staged : Fingerprint}

/-- A receipt binds only through a manifest with the recorded digest that names the bundle. -/
theorem receipt_of_binds {manifest : Option String}
    (h : (receipt_of sha256Hex loads job status manifest).binds staged label = true) :
    status.state = .succeeded ∧ ∃ line m, status.outputSha256 = some (sha256Hex line) ∧
      loads line = some m ∧ manifestInputs job m = some (label, staged.mathTick, staged.lvt) := by
  unfold receipt_of at h
  dsimp only at h
  split at h
  · next sha line hsha =>
      split at h
      · simp [Receipt.binds] at h
      · next hok =>
          push Not at hok
          split at h
          · next env tick hwm hinputs =>
              obtain ⟨m, hm, hinputs⟩ := bind_eq_some_iff.1 hinputs
              simp only [Receipt.binds, Bool.and_eq_true, decide_eq_true_eq, Option.some.injEq] at h
              obtain ⟨⟨⟨-, rfl⟩, rfl⟩, rfl⟩ := h
              exact ⟨hok.1, line, m, by rw [hsha, hok.2], hm, hinputs⟩
          · simp [Receipt.binds] at h
  · simp [Receipt.binds] at h

theorem receipt_binds {pages : List (List LogRow)}
    (h : (receipt sha256Hex loads job status pages).binds staged label = true) :
    status.state = .succeeded ∧ ∃ line m, status.outputSha256 = some (sha256Hex line) ∧
      loads line = some m ∧ manifestInputs job m = some (label, staged.mathTick, staged.lvt) := by
  unfold receipt at h
  split at h
  · split at h
    · exact receipt_of_binds h
    · exact receipt_of_binds h
  · exact receipt_of_binds h

end Receipts

/-! ## One statement -/

section Steps

variable {world : World} {start : String → ℤ} {s s' : State τ} {x : Thread} {y : Payloads} {now n c : ℤ}
  {stage stage' : Stage}

/-- No publication is committed. -/
def Kept (s s' : State τ) : Prop := s'.bundle = s.bundle ∧ s'.published = s.published

theorem Inv.goOn (hs : Inv world start s) {rows : Tables τ} (hgood : rows.Good)
    (hcommitted : rows.committed = s.rows.committed) (hkeeps : ∀ u ≠ t, Rows.Keeps u s.rows rows)
    (hx : Standing world start (s.goOn t rows x) t x) : Inv world start (s.goOn t rows x) := by
  have hbundle : (s.goOn t rows x).bundle = s.bundle := by
    unfold State.bundle
    exact congrArg bundleOf hcommitted
  refine ⟨hgood, fun label => ?_, fun label => ?_, fun u => ?_⟩
  · rw [hbundle]
    exact hs.oneTick label
  · rw [hbundle]
    exact hs.count label
  · by_cases hu : u = t
    · subst hu
      simpa [State.goOn, State.setThread] using hx
    · have hthread : (s.goOn t rows x).threads u = s.threads u := by
        simp [State.goOn, State.setThread, hu]
      rw [hthread]
      refine (hs.threads u).steady ⟨hkeeps u hu, fun label _ => congrFun hbundle label, fun k hk => ?_,
        fun _ _ hq _ => hq⟩
      change (rows.committed k).isSome
      rwa [hcommitted]

theorem Inv.setThread (hs : Inv world start s) (hx : Standing world start s t x) :
    Inv world start (s.setThread t x) := by
  have hsteady : Steady t s (s.goOn t s.rows x) :=
    ⟨.refl t s.rows, fun _ _ => rfl, fun _ hk => hk, fun _ _ hq _ => hq⟩
  exact hs.goOn hs.good rfl (fun u _ => .refl u s.rows) (hx.steady hsteady)

theorem Inv.abort (hs : Inv world start s) : Inv world start (s.abort t) :=
  hs.goOn hs.good.rollback rfl (fun _ hu => Rows.keeps_rollback hu) fun _ => Rows.written_drop_self

theorem Inv.put (hs : Inv world start s) {k : Key} {v : k.2.Row} (hfree : s.rows.Writable t k)
    (hx : Standing world start (s.goOn t (s.rows.put t k v) x) t x) :
    Inv world start (s.goOn t (s.rows.put t k v) x) :=
  hs.goOn (hs.good.put hfree) rfl (fun _ hu => Rows.keeps_put hu hfree) hx

/-- The minted tick is one above the committed one. -/
theorem Writing.mint (hw : Writing s t label y now .begun) {rows : Tables τ}
    (h : increment_math_tick s.rows t label now = some (rows, n)) :
    s.rows.Writable t (label, .ticks) ∧ rows = s.rows.put t (label, .ticks) (⟨n, now⟩ : TicksRow) ∧
      Writing (s.goOn t rows x) t label y now (.minted n) := by
  obtain ⟨rows', hrows, hn⟩ := map_eq_some_iff.1 h
  cases hn
  obtain ⟨hfree, rfl⟩ := upsert_eq_some.1 hrows
  have hview : s.rows.view t (label, .ticks) = s.rows.committed (label, .ticks) := hw.wrote.view .ticks
  have hrow : ∃ n, minted (s.rows.view t (label, .ticks)) now = ⟨n, now⟩ ∧
      n = tickOf (s.bundle label) + 1 := by
    rw [hview]
    unfold tickOf State.bundle bundleOf
    cases s.rows.committed (label, .ticks) with
    | none => exact ⟨0, rfl, rfl⟩
    | some k => exact ⟨_, rfl, rfl⟩
  obtain ⟨n, hrow, hn⟩ := hrow
  rw [hrow]
  refine ⟨hfree, rfl, ?_, ?_, ?_⟩
  · have hdraft : draft y now (.minted n) =
        update (draft y now .begun) .ticks (some (⟨n, now⟩ : TicksRow)) := by
      funext tbl
      rcases tbl with _ | _ | ⟨_ | _⟩ <;> rfl
    rw [hdraft]
    exact hw.wrote.put
  · exact fun _ _ => Rows.owner_put_same
  · rintro _ ⟨⟩
    exact hn

/-- The next row of the draft is written. -/
theorem Writing.write (hw : Writing s t label y now stage) {tbl : Tbl} {v : tbl.Row} (htbl : tbl ≠ .ticks)
    (htick : stage'.tick = stage.tick)
    (hdraft : draft y now stage' = update (draft y now stage) tbl (some v)) :
    Writing (s.goOn t (s.rows.put t (label, tbl) v) x) t label y now stage' where
  wrote := by
    rw [hdraft]
    exact hw.wrote.put
  owner n hn := by
    refine (Rows.owner_put_of_ne ?_).trans (hw.owner n (htick ▸ hn))
    exact fun h => htbl (Prod.mk.inj h).2.symm
  tick n hn := hw.tick n (htick ▸ hn)

/-- A statement that writes nothing. -/
theorem Writing.read (hw : Writing s t label y now stage) (htick : stage'.tick = stage.tick)
    (hdraft : draft y now stage' = draft y now stage) : Writing s t label y now stage' where
  wrote := hdraft ▸ hw.wrote
  owner n hn := hw.owner n (htick ▸ hn)
  tick n hn := hw.tick n (htick ▸ hn)

/-- All four rows of a publication. -/
def full (y : Payloads) (now n c : ℤ) : ∀ tbl : Tbl, tbl.Row
  | .ticks => (⟨n, now⟩ : TicksRow)
  | .main => (⟨y.lastVoteTimestamp, n, y.main, c, some now⟩ : MainRow)
  | .companion k => (⟨n, y.companion k, some now⟩ : CompanionRow)

/-- The draft is complete. -/
def Stage.Full (stage : Stage) (n c : ℤ) : Prop := stage = .main n c ∨ stage = .verified n c

theorem Stage.Full.draft (h : stage.Full n c) : draft y now stage = fun tbl => some (full y now n c tbl) := by
  funext tbl
  rcases h with rfl | rfl <;> rcases tbl with _ | _ | ⟨_ | _⟩ <;> rfl

theorem Stage.Full.tick (h : stage.Full n c) : stage.tick = some n := by
  rcases h with rfl | rfl <;> rfl

section Finish

variable (hs : Inv world start s) (hw : Writing s t label y now stage) (hfull : stage.Full n c)
include hw hfull

theorem Writing.committed : (s.finish t label).bundle label =
    bundleOf (fun k => some (full y now n c k.2)) label := by
  have hview : ∀ tbl, s.rows.view t (label, tbl) = some (full y now n c tbl) := fun tbl => by
    rw [hw.wrote.view, hfull.draft, some_or]
  unfold State.bundle bundleOf
  exact congr (congr (congr (congrArg Bundle.mk (hview _)) (hview _)) (hview _)) (hview _)

theorem Writing.committed_other {env : String} (henv : env ≠ label) :
    (s.finish t label).bundle env = s.bundle env := by
  unfold State.bundle bundleOf
  exact congr (congr (congr (congrArg Bundle.mk (hw.wrote.view_other henv _)) (hw.wrote.view_other henv _))
    (hw.wrote.view_other henv _)) (hw.wrote.view_other henv _)

include hs

/-- A thread that holds the tick of a label sees no other one publish it. -/
theorem Writing.steady (hu : u ≠ t) : Steady u s (s.finish t label) where
  keeps := Rows.keeps_commit hu hs.good
  bundle env hheld := by
    refine hw.committed_other hfull ?_
    rintro rfl
    have howner := hw.owner n hfull.tick
    rcases hheld with hheld | hheld
    · exact hu (Option.some.inj (hheld.symm.trans howner))
    · exact hu (hs.good.alone t _ howner u hheld)
  grows k hk := by
    change (s.rows.view t k).isSome
    rw [Rows.view, isSome_or, hk, Bool.or_true]
  queue _ _ hq _ := hq

/-- A publication ends. -/
theorem Inv.finish : Inv world start (s.finish t label) := by
  have hbundle := hw.committed hfull
  refine ⟨hs.good.commit, fun env => ?_, fun env => ?_, fun u => ?_⟩
  · by_cases henv : env = label
    · subst henv
      rw [hbundle]
      exact .inr ⟨n, atTick_iff.2 ⟨_, _, _, _, rfl, rfl, rfl, rfl, rfl⟩⟩
    · rw [hw.committed_other hfull henv]
      exact hs.oneTick env
  · by_cases henv : env = label
    · subst henv
      have htick := hw.tick n hfull.tick
      have hcount := hs.count env
      rw [hbundle]
      simp only [State.finish, update_self]
      change n = _
      push_cast
      omega
    · rw [hw.committed_other hfull henv]
      simp only [State.finish, update_of_ne henv]
      exact hs.count env
  · by_cases hu : u = t
    · subst hu
      have hthread : (s.finish u label).threads u = .idle := by
        simp [State.finish, State.goOn, State.setThread]
      rw [hthread]
      exact fun _ => Rows.written_drop_self
    · have hthread : (s.finish t label).threads u = s.threads u := by
        simp [State.finish, State.goOn, State.setThread, hu]
      rw [hthread]
      exact (hs.threads u).steady (hw.steady hs hfull hu)

end Finish

end Steps

/-! ## Whole transactions -/

section Calls

variable {world : World} {start : String → ℤ} {s s' : State τ} {stage : Stage} {caching : ℤ}

/-- The call whose publication is committed was entitled to it. -/
def Lawful (world : World) (s s' : State τ) (label : String) : Thread → Prop
  | .publishing w _ => w.label = label ∧ payloadsOf (s'.bundle label) = some w.payloads ∧
      ∀ seen n, w.origin = .backfill seen n → n = s.published label
  | .promoting p _ => p.sight.dst = label ∧ p.sight.src ≠ label ∧
      (∃ y, payloadsOf (s.bundle p.sight.src) = some y ∧ payloadsOf (s'.bundle label) = some y) ∧
      (∃ f, (s.bundle p.sight.src).fingerprint = some f ∧ f.key = p.sight.staged.key ∧
        f.complete = true ∧ staged_newer f (s.bundle label).fingerprint = true) ∧
      Holds (VALID_BUNDLE_SQL world.numericIn world.zid (s.bundle p.sight.src)) ∧
      p.sight.stagedPublished = s.published p.sight.src ∧ p.sight.targetPublished = s.published label ∧
      ∀ job, p.caller = .pass job → ∃ j ∈ job, Backed world s p.sight j
  | _ => False

/-- One publication of the label is committed, by a call that was entitled to it. -/
structure Commits (world : World) (s s' : State τ) (t : τ) (label : String) : Prop where
  published : s'.published = update s.published label (s.published label + 1)
  others : ∀ env, env ≠ label → s'.bundle env = s.bundle env
  lawful : Lawful world s s' label (s.threads t)

/-- What a statement leads to. -/
def Leads (world : World) (start : String → ℤ) (s s' : State τ) (t : τ) : Prop :=
  Inv world start s' ∧ (Kept s s' ∨ ∃ label, Commits world s s' t label)

theorem allows_congr {o : Origin} {a b : Bundle} (h : a.m = b.m) : o.allows a = o.allows b := by
  cases o with
  | live => rfl
  | backfill seen n =>
    have hmark : a.mark = b.mark := by simp only [Bundle.mark, h]
    simp only [Origin.allows, hmark]

/-- Before its main row is written the transaction sees the committed one. -/
theorem Writing.seen_main {now : ℤ} (hw : Writing s t label y now stage)
    (h : stage.caching = none) : (s.seen t label).m = (s.bundle label).m := by
  have hview := hw.wrote.view .main
  have hdraft : draft y now stage .main = none := by
    unfold draft
    rw [h]
    cases stage.tick <;> rfl
  rw [hdraft, none_or] at hview
  exact hview

/-- The statements of `write_conv_updates`. -/
theorem Inv.nextWrite (hs : Inv world start s) {w : Publication}
    (ht : s.threads t = .publishing w stage) (h : s.nextWrite t w caching stage = some s') :
    Leads world start s s' t := by
  have hx := hs.threads t
  rw [ht] at hx
  obtain ⟨hw, hmarked, hallowed⟩ := hx
  cases stage with
  | begun =>
    obtain ⟨⟨rows, n⟩, hmint, rfl⟩ := map_eq_some_iff.1 h
    obtain ⟨hfree, rfl, hw'⟩ := hw.mint hmint
    exact ⟨hs.put hfree ⟨hw', hmarked, fun hpast => nomatch hpast⟩, .inl ⟨rfl, rfl⟩⟩
  | minted n =>
    dsimp only [State.nextWrite] at h
    rw [allows_congr (hw.seen_main rfl)] at h
    split at h
    · next hallows =>
        cases h
        refine ⟨hs.setThread ⟨hw.read rfl ?_, hmarked, fun _ => hallows⟩, .inl ⟨rfl, rfl⟩⟩
        funext tbl
        rcases tbl with _ | _ | ⟨_ | _⟩ <;> rfl
    · cases h
      exact ⟨hs.abort, .inl ⟨rfl, rfl⟩⟩
  | checked | bidtopid | ptptstats =>
    obtain ⟨rows, hrows, rfl⟩ := map_eq_some_iff.1 h
    obtain ⟨hfree, rfl⟩ := upsert_eq_some.1 hrows
    refine ⟨hs.put hfree ⟨hw.write (by simp) rfl ?_, hmarked, fun _ => hallowed rfl⟩, .inl ⟨rfl, rfl⟩⟩
    funext tbl
    rcases tbl with _ | _ | ⟨_ | _⟩ <;> rfl
  | main n c =>
    cases h
    have hfull : (Stage.main n c).Full n c := .inl rfl
    refine ⟨hs.finish hw hfull, .inr ⟨w.label, rfl, fun env henv => hw.committed_other hfull henv, ?_⟩⟩
    rw [ht]
    refine ⟨rfl, ?_, fun seen k horigin => ?_⟩
    · rw [hw.committed hfull]
      rfl
    · -- A mark that is still the committed one is as old as the committed tick.
      have hmark : (s.bundle w.label).mark = seen := by
        simpa [Origin.allows, horigin] using hallowed rfl
      have hseen := hmarked seen k horigin
      have hcount := hs.count w.label
      rw [← hmark, OneTick.mark (hs.oneTick w.label)] at hseen
      omega
  | shared n | verified n c => cases h

theorem fingerprint_congr {a b : Bundle} (h : a.m = b.m) :
    fingerprint_key a.fingerprint = fingerprint_key b.fingerprint ∧
      ∀ f, staged_newer f a.fingerprint = staged_newer f b.fingerprint := by
  unfold Bundle.fingerprint
  rw [h]
  cases b.m with
  | none | some => exact ⟨rfl, fun _ => rfl⟩

/-- The checks read the main row of the target alone. -/
theorem promotable_congr {numericIn : String → Option ℚ} {zid : ℤ} {staged a b : Bundle}
    (h : a.m = b.m) : x.promotable numericIn zid staged a = x.promotable numericIn zid staged b := by
  obtain ⟨hkey, hnewer⟩ := fingerprint_congr h
  simp only [Sight.promotable, hkey, hnewer]

theorem promotable_iff {numericIn : String → Option ℚ} {zid : ℤ} {staged target : Bundle} :
    x.promotable numericIn zid staged target = true ↔
      fingerprint_key target.fingerprint = fingerprint_key x.target ∧
        ∃ f, staged.fingerprint = some f ∧ f.key = x.staged.key ∧ f.complete = true ∧
          Holds (VALID_BUNDLE_SQL numericIn zid staged) ∧ staged_newer f target.fingerprint = true := by
  unfold Sight.promotable
  cases staged.fingerprint with
  | none => simp
  | some f => simp [and_assoc]

/-- The bundle of another label is seen as it is committed. -/
theorem Writing.seen_other {now : ℤ} (hw : Writing s t label y now stage) {env : String}
    (henv : env ≠ label) : s.seen t env = s.bundle env := by
  unfold State.seen State.bundle bundleOf
  rw [hw.wrote.view_other henv, hw.wrote.view_other henv, hw.wrote.view_other henv,
    hw.wrote.view_other henv]

section Promotions

variable {p : Promotion} {y : Payloads}

section

variable (hx : Promoting world start s t p stage y)
include hx

/-- A statement that copies the next row. -/
theorem Promoting.write {stage' : Stage} {tbl : Tbl} {v : tbl.Row} {x : Thread}
    (hpast : stage.past = true) (htbl : tbl ≠ .ticks)
    (htick : stage'.tick = stage.tick)
    (hdraft : draft y p.now stage' = update (draft y p.now stage) tbl (some v)) :
    Promoting world start (s.goOn t (s.rows.put t (p.sight.dst, tbl) v) x) t p stage' y where
  ne := hx.ne
  sighted := ⟨hx.sighted.staged, hx.sighted.target, hx.sighted.exists_tick⟩
  backed := hx.backed
  writing := hx.writing.write htbl htick hdraft
  shares _ := hx.shares (Stage.past_sharing hpast)
  promotable _ := hx.promotable hpast
  payloads _ := hx.payloads hpast

/-- The source row of a companion is the staged one. -/
theorem Promoting.companion (hpast : stage.past = true)
    (c : Companion) {tick : ℤ} : copyCompanion s.rows t c p.sight.src p.sight.dst tick p.now =
      writeCompanion s.rows t p.sight.dst c (y.companion c) tick p.now := by
  have hview := hx.writing.wrote.view_other hx.ne (.companion c)
  obtain ⟨m, b, q, -, hb, hq, rfl⟩ := payloadsOf_eq_some.1 (hx.payloads hpast)
  unfold copyCompanion
  rw [hview]
  cases c with
  | bidtopid =>
    change s.rows.committed (p.sight.src, .companion .bidtopid) = some b at hb
    rw [hb]
    rfl
  | ptptstats =>
    change s.rows.committed (p.sight.src, .companion .ptptstats) = some q at hq
    rw [hq]
    rfl

theorem Promoting.main (hpast : stage.past = true)
    {tick : ℤ} : copyMain s.rows t p.sight.src p.sight.dst tick p.now caching =
      write_math_main s.rows t p.sight.dst y.main y.lastVoteTimestamp tick p.now caching := by
  have hview := hx.writing.wrote.view_other hx.ne .main
  obtain ⟨m, b, q, hm, -, -, rfl⟩ := payloadsOf_eq_some.1 (hx.payloads hpast)
  unfold copyMain
  rw [hview]
  change s.rows.committed (p.sight.src, .main) = some m at hm
  rw [hm]

end

/-- What was seen of the labels is what is committed, and nothing was published since. -/
theorem Promoting.current (hs : Inv world start s) (hx : Promoting world start s t p stage y)
    (hpast : stage.past = true) :
    p.sight.stagedPublished = s.published p.sight.src ∧
      p.sight.targetPublished = s.published p.sight.dst := by
  obtain ⟨htarget, f, hf, hkey, -⟩ := promotable_iff.1 (hx.promotable hpast)
  have hstaged := (OneTick.fingerprint (hs.oneTick _) hf).1
  have hkeytick : f.mathTick = p.sight.staged.mathTick := congrArg Prod.fst hkey
  have htick := (targetTick_eq htarget).symm.trans (OneTick.targetTick (hs.oneTick _))
  have hsrc := hs.count p.sight.src
  have hdst := hs.count p.sight.dst
  have hseen := hx.sighted.staged
  have hseen' := hx.sighted.target
  constructor
  · omega
  · omega

/-- The statements of `promote_bundle`. -/
theorem Inv.nextPromote (hs : Inv world start s) (ht : s.threads t = .promoting p stage)
    (h : s.nextPromote t world.numericIn world.zid p caching stage = some s') :
    Leads world start s s' t := by
  have hx := hs.threads t
  rw [ht] at hx
  obtain ⟨y, hx⟩ := hx
  cases stage with
  | begun =>
    obtain ⟨⟨rows, n⟩, hmint, rfl⟩ := map_eq_some_iff.1 h
    obtain ⟨hfree, rfl, hw⟩ := hx.writing.mint hmint
    have hsighted := hx.sighted
    exact ⟨hs.put hfree ⟨y, hx.ne, ⟨hsighted.staged, hsighted.target, hsighted.exists_tick⟩, hx.backed,
      hw, fun hsharing => (nomatch hsharing), fun hpast => (nomatch hpast),
      fun hpast => (nomatch hpast)⟩, .inl ⟨rfl, rfl⟩⟩
  | minted n =>
    obtain ⟨rows, hrows, rfl⟩ := map_eq_some_iff.1 h
    have hview : s.rows.view t (p.sight.src, .ticks) = s.rows.committed (p.sight.src, .ticks) :=
      hx.writing.wrote.view_other hx.ne .ticks
    have hseen : (s.rows.view t (p.sight.src, .ticks)).isSome := hview ▸ hx.sighted.exists_tick
    unfold shareTick at hrows
    split at hrows
    · next hfree =>
        cases hrows
        have hfree := hfree.resolve_left fun hnone => by
          rw [isNone_iff_eq_none.1 hnone] at hseen
          cases hseen
        have hbundle : (s.goOn t (s.rows.share t (p.sight.src, .ticks))
            (.promoting p (.shared n))).bundle = s.bundle := by
          unfold State.bundle
          exact congrArg bundleOf Rows.committed_share
        refine ⟨hs.goOn (hs.good.share hfree) Rows.committed_share (fun u hu => Rows.keeps_share hu)
          ⟨y, hx.ne, ⟨hx.sighted.staged, hx.sighted.target, ?_⟩, hx.backed, ⟨?_, ?_, ?_⟩,
            fun _ => Rows.mem_share hseen, fun hpast => (nomatch hpast), fun hpast => (nomatch hpast)⟩,
          .inl ⟨hbundle, rfl⟩⟩
        · change ((s.rows.share t (p.sight.src, .ticks)).committed _).isSome
          rw [Rows.committed_share]
          exact hx.sighted.exists_tick
        · intro k
          change (s.rows.share t (p.sight.src, .ticks)).written t k = _
          rw [Rows.written_share]
          exact hx.writing.wrote k
        · intro m hm
          change (s.rows.share t (p.sight.src, .ticks)).owner _ = _
          rw [Rows.owner_share]
          exact hx.writing.owner m hm
        · intro m hm
          rw [hbundle]
          exact hx.writing.tick m hm
    · cases hrows
  | shared n =>
    dsimp only [State.nextPromote] at h
    rw [hx.writing.seen_other hx.ne, promotable_congr (hx.writing.seen_main rfl)] at h
    split at h
    · next hok =>
        cases h
        obtain ⟨-, f, hf, -, hcomplete, -⟩ := promotable_iff.1 hok
        obtain ⟨m, hm, rfl⟩ := map_eq_some_iff.1 hf
        obtain ⟨z, hz⟩ := complete_payloads hcomplete
        -- What is copied from here on are the payloads of the staged bundle.
        have hdraft : draft z p.now (.checked n) = draft y p.now (.shared n) := by
          funext tbl
          rcases tbl with _ | _ | ⟨_ | _⟩ <;> rfl
        have hw := hx.writing
        exact ⟨hs.setThread ⟨z, hx.ne, hx.sighted, hx.backed,
          ⟨hdraft ▸ hw.wrote, hw.owner, hw.tick⟩, fun _ => hx.shares rfl, fun _ => hok, fun _ => hz⟩,
          .inl ⟨rfl, rfl⟩⟩
    · cases h
      exact ⟨hs.abort, .inl ⟨rfl, rfl⟩⟩
  | checked | bidtopid =>
    obtain ⟨rows, hrows, rfl⟩ := map_eq_some_iff.1 h
    rw [hx.companion rfl] at hrows
    obtain ⟨hfree, rfl⟩ := upsert_eq_some.1 hrows
    refine ⟨hs.put hfree ⟨y, hx.write rfl (by simp) rfl ?_⟩, .inl ⟨rfl, rfl⟩⟩
    funext tbl
    rcases tbl with _ | _ | ⟨_ | _⟩ <;> rfl
  | ptptstats n =>
    obtain ⟨rows, hrows, rfl⟩ := map_eq_some_iff.1 h
    rw [hx.main rfl] at hrows
    obtain ⟨hfree, rfl⟩ := upsert_eq_some.1 hrows
    refine ⟨hs.put hfree ⟨y, hx.write rfl (by simp) rfl ?_⟩, .inl ⟨rfl, rfl⟩⟩
    funext tbl
    rcases tbl with _ | _ | ⟨_ | _⟩ <;> rfl
  | main n c =>
    dsimp only [State.nextPromote] at h
    split at h
    · cases h
      have hw := hx.writing
      refine ⟨hs.setThread ⟨y, hx.ne, hx.sighted, hx.backed, hw.read rfl ?_, fun _ => hx.shares rfl,
        fun _ => hx.promotable rfl, fun _ => hx.payloads rfl⟩, .inl ⟨rfl, rfl⟩⟩
      funext tbl
      rcases tbl with _ | _ | ⟨_ | _⟩ <;> rfl
    · cases h
      exact ⟨hs.abort, .inl ⟨rfl, rfl⟩⟩
  | verified n c =>
    cases h
    have hfull : (Stage.verified n c).Full n c := .inr rfl
    have hw := hx.writing
    refine ⟨hs.finish hw hfull, .inr ⟨p.sight.dst, rfl, fun env henv => hw.committed_other hfull henv,
      ?_⟩⟩
    rw [ht]
    obtain ⟨-, f, hf, hkey, hcomplete, hvalid, hnewer⟩ := promotable_iff.1 (hx.promotable rfl)
    obtain ⟨hsrc, hdst⟩ := hx.current hs rfl
    refine ⟨rfl, hx.ne, ⟨y, hx.payloads rfl, ?_⟩, ⟨f, hf, hkey, hcomplete, hnewer⟩, hvalid, hsrc, hdst,
      hx.backed⟩
    rw [hw.committed hfull]
    rfl

end Promotions

end Calls

/-! ## Runs -/

section Runs

variable {world : World} {start : String → ℤ} {s₀ s s' : State τ} {e : Event τ} {es : List (Event τ)}

theorem World.passes_backed {job : String} {status : JobStatus} {pages : List (List LogRow)}
    (hq : s.queue job = some status) (h : world.passes x job status pages = true) :
    Backed world s x job := by
  simp only [World.passes, Bool.and_eq_true] at h
  obtain ⟨hstate, line, m, hsha, hm, hinputs⟩ := receipt_binds h.2
  exact ⟨status, line, m, hq, hstate, hsha, hm, hinputs⟩

/-- A call of `promote_bundle` begins where its caller stands. -/
theorem standing_call {now : ℤ} {caller : Caller} (hclean : Clean s.rows t)
    (hx : Sighted start s x) (hbacked : ∀ job, caller = .pass job → ∃ j ∈ job, Backed world s x j) :
    Standing world start s t (callPromote x now caller) := by
  unfold callPromote
  split
  · exact hclean
  · next hne =>
      exact ⟨⟨.null, 0, .null, .null⟩, hne, hx, hbacked,
        ⟨hclean.wrote _ _, fun _ hn => (nomatch hn), fun _ hn => (nomatch hn)⟩,
        fun hsharing => (nomatch hsharing), fun hpast => (nomatch hpast), fun hpast => (nomatch hpast)⟩

theorem State.sighted (hs : Inv world start s) {src dst : String} (h : s.sight src dst = some x) :
    Sighted start s x := by
  obtain ⟨staged, hstaged, rfl⟩ := map_eq_some_iff.1 h
  obtain ⟨htick, hexists⟩ := OneTick.fingerprint (hs.oneTick src) hstaged
  exact ⟨htick.trans (hs.count src), (OneTick.targetTick (hs.oneTick dst)).trans (hs.count dst), hexists⟩

/-- The queue keeps what it says of a job that has ended. -/
theorem Inv.queue (hs : Inv world start s) {job : String} {status : JobStatus}
    (h : (s.queue job).all fun old => !old.state.terminal || status = old) :
    Inv world start { s with queue := update s.queue job (some status) } := by
  refine ⟨hs.good, hs.oneTick, hs.count, fun u => ?_⟩
  have hsteady : Steady u s { s with queue := update s.queue job (some status) } := by
    refine ⟨.refl u s.rows, fun _ _ => rfl, fun _ hk => hk, fun j old hj hterminal => ?_⟩
    by_cases hjob : j = job
    · subst hjob
      rw [hj] at h
      have hsame : status = old := by simpa [hterminal] using h
      rw [hsame]
      exact update_self ..
    · exact (update_of_ne hjob ..).trans hj
  exact (hs.threads u).steady hsteady

/-- What one event leads to. -/
theorem Inv.step (hs : Inv world start s) (h : Step world s e s') :
    Inv world start s' ∧ (Kept s s' ∨ ∃ t c label, e = .next t c ∧ Commits world s s' t label) := by
  unfold Step next at h
  cases e with
  | publish t label payloads now =>
    have hx := hs.threads t
    dsimp only at h
    split at h
    · next hidle =>
        cases h
        rw [hidle] at hx
        refine ⟨hs.setThread ?_, .inl ⟨rfl, rfl⟩⟩
        exact ⟨⟨Clean.wrote hx _ _, fun _ hn => (nomatch hn), fun _ hn => (nomatch hn)⟩,
          fun _ _ horigin => (nomatch horigin), fun hpast => (nomatch hpast)⟩
    · cases h
  | readState t label =>
    have hx := hs.threads t
    dsimp only at h
    split at h
    · next hidle =>
        cases h
        rw [hidle] at hx
        refine ⟨hs.setThread ?_, .inl ⟨rfl, rfl⟩⟩
        exact ⟨hx, (OneTick.mark (hs.oneTick label)).trans (hs.count label)⟩
    · cases h
  | republish t payloads now =>
    have hx := hs.threads t
    dsimp only at h
    split at h
    · next label seen n hthread =>
        cases h
        rw [hthread] at hx
        refine ⟨hs.setThread ?_, .inl ⟨rfl, rfl⟩⟩
        refine ⟨⟨hx.1.wrote _ _, fun _ hn => (nomatch hn), fun _ hn => (nomatch hn)⟩,
          fun seen' n' horigin => ?_, fun hpast => (nomatch hpast)⟩
        cases horigin
        exact hx.2
    · cases h
  | readFingerprints t src dst caller =>
    have hx := hs.threads t
    dsimp only at h
    split at h
    · next hidle =>
        obtain ⟨x, hsight, rfl⟩ := map_eq_some_iff.1 h
        rw [hidle] at hx
        refine ⟨hs.setThread ?_, .inl ⟨rfl, rfl⟩⟩
        exact ⟨hx, State.sighted hs hsight⟩
    · cases h
  | askReceipt t pages =>
    have hx := hs.threads t
    dsimp only at h
    split at h
    · next x job hthread =>
        rw [hthread] at hx
        split at h
        · next hpass =>
            cases h
            obtain ⟨status, hq, hpass⟩ := (any_eq_true _ _).1 hpass
            refine ⟨hs.setThread ?_, .inl ⟨rfl, rfl⟩⟩
            exact ⟨hx.1, hx.2, World.passes_backed hq hpass⟩
        · cases h
          exact ⟨hs.setThread hx.1, .inl ⟨rfl, rfl⟩⟩
    · cases h
  | promote t now =>
    have hx := hs.threads t
    dsimp only at h
    split at h
    · next x hthread =>
        cases h
        rw [hthread] at hx
        exact ⟨hs.setThread (standing_call hx.1 hx.2 fun job hjob => (nomatch hjob)), .inl ⟨rfl, rfl⟩⟩
    · next x job hthread =>
        cases h
        rw [hthread] at hx
        refine ⟨hs.setThread (standing_call hx.1 hx.2.1 fun job' hjob => ?_), .inl ⟨rfl, rfl⟩⟩
        cases hjob
        exact ⟨job, rfl, hx.2.2⟩
    · cases h
  | next t caching =>
    dsimp only at h
    split at h
    · next w stage hthread =>
        obtain ⟨hinv, hkeep | ⟨label, hcommit⟩⟩ := hs.nextWrite hthread h
        · exact ⟨hinv, .inl hkeep⟩
        · exact ⟨hinv, .inr ⟨t, caching, label, rfl, hcommit⟩⟩
    · next p stage hthread =>
        obtain ⟨hinv, hkeep | ⟨label, hcommit⟩⟩ := hs.nextPromote hthread h
        · exact ⟨hinv, .inl hkeep⟩
        · exact ⟨hinv, .inr ⟨t, caching, label, rfl, hcommit⟩⟩
    · cases h
  | rollback t =>
    cases h
    exact ⟨hs.abort, .inl ⟨rfl, rfl⟩⟩
  | queue job status =>
    dsimp only at h
    split at h
    · next hall =>
        cases h
        exact ⟨hs.queue hall, .inl ⟨rfl, rfl⟩⟩
    · cases h

theorem Start.inv (h : Start s₀) : Inv world (fun label => tickOf (s₀.bundle label)) s₀ where
  good := ⟨fun t k hne => absurd (h.written t k) hne, fun t k ht => by
    rw [h.owner k] at ht
    cases ht⟩
  oneTick := h.oneTick
  count label := by
    rw [h.published]
    simp
  threads t := by
    rw [h.threads t]
    exact h.written t

/-- Over any interleaving of live publications, backfills and promotions, with aborts anywhere: the four rows
of a label are at one tick, which has risen by one for each committed publication. A step commits nothing, or
one publication of one label; a backfill has then seen the label after its last publication, and a promotion
leaves the payloads of a staged bundle that is complete, valid, the one its caller saw and newer than the
target it replaces, and if the pass called it, the job of its record has succeeded with a manifest that names
the bundle. -/
theorem publication_contract (h₀ : Start s₀) (hrun : Run (Step world) s₀ es s) :
    (∀ label, (s.bundle label).OneTick ∧
      tickOf (s.bundle label) = tickOf (s₀.bundle label) + s.published label) ∧
    ∀ e s', Step world s e s' →
      Kept s s' ∨ ∃ t c label, e = .next t c ∧ Commits world s s' t label := by
  have hinv : Inv world (fun label => tickOf (s₀.bundle label)) s :=
    hrun.keeps (Inv world _) (h₀.inv) fun _ _ _ hs hstep => (hs.step hstep).1
  exact ⟨fun label => ⟨hinv.oneTick label, hinv.count label⟩, fun e s' hstep => (hinv.step hstep).2⟩

/-! ### A staged bundle that is promoted -/

private def whole (n : ℤ) : Jsonb := .number ⟨n, 0⟩

/-- The payloads of conversation 7 without participants. -/
private def noParticipants : Payloads where
  main := .object [("zid", whole 7), ("lastVoteTimestamp", whole 0), ("tids", .array []),
    ("pca", .object [("center", .array []), ("comps", .array [])]), ("repness", .object []),
    ("group-votes", .object []), ("n", whole 0),
    ("base-clusters", .object [("id", .array []), ("members", .array [])]),
    ("group-clusters", .array []), ("in-conv", .array [])]
  lastVoteTimestamp := 0
  bidtopid := .object [("zid", whole 7), ("lastVoteTimestamp", whole 0), ("bidToPid", .array [])]
  ptptstats := .object [("zid", whole 7), ("lastVoteTimestamp", whole 0), ("ptptstats", .object [])]

private def manifest : Json PyNumber :=
  .object [("schema", .string MANIFEST_SCHEMA), ("job_id", .string "job"),
    ("stage", .string STAGE_MATH_REBUILD), ("outcome", .string "succeeded"),
    ("inputs", .object [("math_env", .string "python-large"), ("math_tick", .number (.int 0)),
      ("vote_hwm", .number (.int 0))])]

private def sampleWorld : World where
  numericIn _ := none
  sha256Hex _ := "digest"
  loads _ := some manifest
  zid := 7

private def noRows : State ℕ := ⟨⟨fun _ => none, fun _ _ => none, fun _ => none, fun _ => []⟩,
  fun _ => .idle, fun _ => none, fun _ => 0⟩

private theorem noRows_start : Start noRows :=
  ⟨fun _ _ => rfl, fun _ => rfl, fun _ => rfl, fun _ => rfl, fun _ => .inl ⟨rfl, rfl, rfl, rfl⟩⟩

/-- Thread 0 stages the bundle, and thread 1 promotes it on the receipt of its job. -/
private def stagedAndPromoted : List (Event ℕ) :=
  .publish 0 "python-large" noParticipants 5 :: List.replicate 6 (.next 0 1) ++
    [.queue "job" ⟨.succeeded, some "digest", some "attempt"⟩,
      .readFingerprints 1 "python-large" "python" (.pass (some "job")),
      .askReceipt 1 [[⟨1, MANIFEST_STREAM, "line"⟩]], .promote 1 6] ++ List.replicate 8 (.next 1 1)

private theorem promoted_run : (stagedAndPromoted.foldlM (next sampleWorld) noRows).map
    (fun s => (s.published "python-large", s.published "python")) = some (1, 1) := by
  decide +kernel

theorem publication_contract_promoted : ∃ s : State ℕ,
    Run (Step sampleWorld) noRows stagedAndPromoted s ∧ s.published "python" = 1 ∧
      (s.bundle "python").OneTick ∧ tickOf (s.bundle "python") = 0 := by
  obtain ⟨s, hs, hpublished⟩ := map_eq_some_iff.1 promoted_run
  have hrun : Run (Step sampleWorld) noRows stagedAndPromoted s := run_of_foldlM hs
  obtain ⟨hone, htick⟩ := (publication_contract noRows_start hrun).1 "python"
  have hcount : s.published "python" = 1 := congrArg Prod.snd hpublished
  refine ⟨s, hrun, hcount, hone, ?_⟩
  rw [htick, hcount]
  rfl

end Runs

end Polis.Poller.Publications
