import Polis.Poller.Handoff

/-!
# When the hand-off forgets no input

The pass takes a bundle that was written after an input for one that contains it. That is so while nothing is
committed between the read of a computation and its write, and nothing is committed later with an earlier
stamp; then the times at which bundles were computed order what they contain, and a record is settled only for
input that the target holds.
-/

namespace Polis.Poller.Handoff

open Capacity Option

variable {ι : Type}
variable {batch : List Row} {now : ℤ} {z : Sizing} {b : Built}
variable {staged target : Option Built} {op : Router × Bool} {d : Demand} {rows : List Row}
  {saved : Bool}

/-! ## What the hand-off promises -/

/-- The bundle holds every one of the rows. -/
def Holds (b : Option Built) (rows : List Row) : Prop := ∃ x, b = some x ∧ ∀ r ∈ rows, r ∈ x.rows

/-- A routed record is unresolved while the served bundle lacks a row that it was told of. -/
def Remembers (s : State ι) : Prop := ∀ d, s.router.record = some d → d.disposition.routed = true →
  (∃ r ∈ s.told, ∀ x, s.target = some x → r ∉ x.rows) → d.firstUnresolvedMs.isSome = true

/-- A verdict that the router accepts is about bundles that hold every row that the record was told of. -/
def SettlesSoundly (s : State ι) : Prop := ∀ d staged target rec,
  s.pass = .judging d staged target → s.router.record = some rec →
    rec.inputThroughMs = d.record.inputThroughMs →
      (waits d.record (staged.map (·.fp)) (target.map (·.fp)) = true → Holds s.staged s.told) ∧
        (resolves d.record (staged.map (·.fp)) (target.map (·.fp)) = true → Holds s.target s.told)

/-- For the rows that its record was told of, the pass finds a waiting bundle with them, or the target has
them, or it goes on to ask for a job; and it asks, unless the record is poisoned, no longer large or past the
limit. -/
def PassAnswers [DecidableEq ι] (z : Sizing) (s : State ι) : Prop :=
  (∀ d staged target, s.pass = .judging d staged target →
    (waits d.record (staged.map (·.fp)) (target.map (·.fp)) = true ∧ Holds s.staged d.told) ∨
      Holds s.target d.told ∨
        ∀ saved s', Step z s (.passSettle saved) s' → s'.pass = .asking d) ∧
  ∀ d, s.pass = .asking d → ∀ asked c s', Step z s (.passAsk asked (some c)) s' → c ≠ "" →
    asked < MAX_ENQUEUE_PER_TICK → s.router.poisoned (some c) = false →
      s.router.disposition = some .large → s'.asks = s.asks + 1

/-! ## The condition -/

/-- What a computation publishes holds every row, and a staged bundle is not written in the millisecond in
which an older one was promoted. -/
def FairWrite (s : State ι) : Option Compute → Prop
  | some (.reading side rows) => rows = s.rows ∧
      (side = .staged → ∀ b ∈ s.target, b.fp.modified = s.clock → b.computed = s.clock)
  | some (.published _) | none => True

instance (s : State ι) : DecidablePred (FairWrite s)
  | some (.reading side rows) => inferInstanceAs (Decidable (rows = s.rows ∧
      (side = .staged → ∀ b ∈ s.target, b.fp.modified = s.clock → b.computed = s.clock)))
  | some (.published _) | none => inferInstanceAs (Decidable True)

/-- No row is committed between the read of a computation and its write, nor with a stamp that a bundle's
computation has passed; a staged bundle is not written in the millisecond in which an older one was promoted;
and the state file can be written. -/
def Fair (s : State ι) : Event ι → Prop
  | .commit r => (∀ b ∈ s.staged, b.computed < r.stamp) ∧ ∀ b ∈ s.target, b.computed < r.stamp
  | .write i => FairWrite s (s.computes i)
  | .resolve _ saved | .observe _ _ _ _ _ saved | .advance _ _ saved | .resize _ _ saved
  | .restage _ _ _ saved | .trim saved | .answer _ _ saved | .passSettle saved => saved = true
  | _ => True

instance (s : State ι) : DecidablePred (Fair s)
  | .commit r => inferInstanceAs
      (Decidable ((∀ b ∈ s.staged, b.computed < r.stamp) ∧ ∀ b ∈ s.target, b.computed < r.stamp))
  | .write i => inferInstanceAs (Decidable (FairWrite s (s.computes i)))
  | .resolve _ saved | .observe _ _ _ _ _ saved | .advance _ _ saved | .resize _ _ saved
  | .restage _ _ _ saved | .trim saved | .answer _ _ saved | .passSettle saved =>
    inferInstanceAs (Decidable (saved = true))
  | .tick _ | .start _ _ | .stop _ | .restart | .passRecord | .passRead | .passCheck _ | .passPromote _
  | .passReread | .passAsk _ _ => inferInstanceAs (Decidable True)

/-- A step under the condition. -/
def FairStep [DecidableEq ι] (z : Sizing) (s : State ι) (e : Event ι) (s' : State ι) : Prop := Fair s e ∧ Step z s e s'

/-! ## Marks -/

theorem newestInput_le {r : Row} (hr : r ∈ batch) :
    ∃ m ∈ newestInput batch, r.stamp ≤ m := by
  cases batch with
  | nil => cases hr
  | cons b batch =>
    refine ⟨_, rfl, ?_⟩
    have hfold : ∀ (l : List Row) (m : ℤ), m ≤ l.foldl (fun m r => max m r.stamp) m ∧
        ∀ r ∈ l, r.stamp ≤ l.foldl (fun m r => max m r.stamp) m := by
      intro l
      induction l with
      | nil => exact fun m => ⟨le_rfl, fun r hr => (nomatch hr)⟩
      | cons c l ih =>
        intro m
        obtain ⟨hm, hl⟩ := ih (max m c.stamp)
        rw [List.foldl_cons]
        refine ⟨(le_max_left _ _).trans hm, fun r hr => ?_⟩
        rcases List.mem_cons.1 hr with rfl | hr
        · exact (le_max_right _ _).trans hm
        · exact hl r hr
    obtain ⟨hb, hl⟩ := hfold batch b.stamp
    rcases List.mem_cons.1 hr with rfl | hr
    · exact hb
    · exact hl r hr

/-- The mark has reached the time. -/
def Reaches (mark : Option ℤ) (t : ℤ) : Prop := ∃ m ∈ mark, t ≤ m

/-- A record goes on from another: its mark does not fall back, and it stays unresolved. -/
structure GoesOn (d d' : Disposition) : Prop where
  mark : ∀ t, Reaches d.inputThroughMs t → Reaches d'.inputThroughMs t
  unresolved : d.firstUnresolvedMs.isSome = true → d'.firstUnresolvedMs.isSome = true

theorem GoesOn.refl (d : Disposition) : GoesOn d d := ⟨fun _ h => h, fun h => h⟩

/-- `_advance_locked` reaches the input, and the record is unresolved. -/
theorem advance_spec (d : Disposition) (input : Option ℤ) (now : ℤ) :
    GoesOn d (d.advance input now) ∧ (d.advance input now).firstUnresolvedMs.isSome = true ∧
      ∀ t, Reaches input t → Reaches (d.advance input now).inputThroughMs t := by
  have hfirst : (d.advance input now).firstUnresolvedMs.isSome = true := by
    cases h : d.firstUnresolvedMs <;> simp [Disposition.advance, h]
  refine ⟨⟨fun t => ?_, fun _ => hfirst⟩, hfirst, fun t => ?_⟩
  · rintro ⟨m, hm, htm⟩
    rw [mem_def] at hm
    cases input with
    | none => exact ⟨m, hm, htm⟩
    | some n =>
      by_cases hlt : m < n
      · exact ⟨n, by simp [Disposition.advance, hm, hlt], by omega⟩
      · exact ⟨m, by simp [Disposition.advance, hm, hlt], htm⟩
  · rintro ⟨n, rfl, htn⟩
    cases hd : d.inputThroughMs with
    | none => exact ⟨n, by simp [Disposition.advance, hd], htn⟩
    | some m =>
      by_cases hlt : m < n
      · exact ⟨n, by simp [Disposition.advance, hd, hlt], htn⟩
      · exact ⟨m, by simp [Disposition.advance, hd, hlt], by omega⟩

/-- `observe` leaves no record, or one that goes on from the one before; with an advance, or without a record
before, it has reached the input and is unresolved. -/
theorem observe_spec {r r' : Router} {sizes : Option (ℤ × ℤ × ℤ)} {need input : Option ℤ}
    {refused advance saves : Bool} {c : Capacity.Class}
    (h : r.observe z sizes need input refused advance now = some (r', saves, c)) :
    (saves = false → r'.record = r.record) ∧ ∀ d', r'.record = some d' →
      (∀ d, r.record = some d → GoesOn d d') ∧ (advance = true ∨ r.record = none →
        d'.firstUnresolvedMs.isSome = true ∧ ∀ t, Reaches input t → Reaches d'.inputThroughMs t) := by
  obtain ⟨n, -, h⟩ := map_eq_some_iff.1 h
  dsimp only at h
  split at h
  · cases h
    exact ⟨fun hsaves => (not_isSome_iff_eq_none.1 (by simp [hsaves])).symm,
      fun d' hd' => (nomatch hd')⟩
  · cases h
    refine ⟨fun hsaves => (nomatch hsaves), fun d' hd' => ?_⟩
    -- The record before the mark is advanced has the marks of the one before.
    generalize hbase : ({ r.record.getD { disposition := z.classify n _, needBytes := n } with
      disposition := _, needBytes := n, sizes := _, binding := _, sizedMs := now, refusals := _ } :
        Disposition) = base at hd'
    have hmarks : ∀ d, r.record = some d → base.inputThroughMs = d.inputThroughMs ∧
        base.firstUnresolvedMs = d.firstUnresolvedMs := by
      intro d hd
      rw [← hbase, hd]
      exact ⟨rfl, rfl⟩
    obtain ⟨hgo, hfirst, hreach⟩ := advance_spec base input now
    split at hd'
    · cases hd'
      refine ⟨fun d hd => ⟨fun t ht => hgo.mark t ?_, fun _ => hfirst⟩, fun _ => ⟨hfirst, hreach⟩⟩
      rwa [(hmarks d hd).1]
    · next hno =>
        cases hd'
        simp only [Bool.or_eq_true, isNone_iff_eq_none, not_or, Bool.not_eq_true] at hno
        refine ⟨fun d hd => ⟨fun t ht => ?_, fun hd' => ?_⟩, fun h => ?_⟩
        · rwa [(hmarks d hd).1]
        · rwa [(hmarks d hd).2]
        · rcases h with h | h
          · exact absurd h (by simp [hno.1])
          · exact absurd h hno.2

/-- What an operation changes of the record it saves, and a record that was there goes on. -/
structure Going (r : Router) (op : Router × Bool) : Prop where
  saves : op.2 = false → op.1.record = r.record
  goes : ∀ d d', r.record = some d → op.1.record = some d' → GoesOn d d'

/-- An operation that leaves the record. -/
theorem Going.leave {r : Router} (h : op.1.record = r.record) : Going r op := by
  refine ⟨fun _ => h, fun d d' hd hd' => ?_⟩
  rw [h, hd, Option.some.injEq] at hd'
  exact hd' ▸ .refl d

/-- An operation that saves what it makes of a record. -/
theorem Going.put {r : Router} {d : Disposition} (d' : Disposition) (hsaves : op.2 = true)
    (hd : r.record = some d) (hd' : op.1.record = some d') (hgo : GoesOn d d') : Going r op := by
  refine ⟨fun h => absurd (h.symm.trans hsaves) (by decide), fun e e' he he' => ?_⟩
  rw [hd, Option.some.injEq] at he
  rw [hd', Option.some.injEq] at he'
  exact he ▸ he' ▸ hgo

theorem advance_going (r : Router) (input : Option ℤ) (now : ℤ) : Going r (r.advance input now) := by
  cases hrec : r.record with
  | none => exact .leave (by simp [Router.advance, hrec])
  | some d =>
    by_cases hsame : d.advance input now = d
    · exact .leave (by simp [Router.advance, hrec, hsame])
    · exact .put _ (by simp [Router.advance, hrec, hsame]) hrec (by simp only [Router.advance, hrec])
        (advance_spec d input now).1

theorem restage_going (r : Router) (nonce : String) (mark now : ℤ) :
    Going r (r.apply_restage nonce mark now) := by
  by_cases happlied : r.restageApplied = some nonce
  · exact .leave (by simp [Router.apply_restage, happlied])
  · cases hrec : r.record with
    | none => exact .leave (by simp [Router.apply_restage, happlied, hrec])
    | some d =>
      by_cases hlarge : d.disposition = .large
      · refine .put { d with
            inputThroughMs := some (max (d.inputThroughMs.getD 0) mark)
            firstUnresolvedMs := d.firstUnresolvedMs.or (some now)
            poisonedCommit := none }
          (by simp [Router.apply_restage, happlied, hrec, hlarge]) hrec
          (by simp [Router.apply_restage, happlied, hrec, hlarge]) ⟨?_, fun hsome => ?_⟩
        · rintro t ⟨m, hm, hle⟩
          rw [mem_def] at hm
          exact ⟨_, rfl, by rw [hm]; exact hle.trans (le_max_left _ _)⟩
        · obtain ⟨m, hm⟩ := isSome_iff_exists.1 hsome
          simp [hm]
      · exact .leave (by simp [Router.apply_restage, happlied, hrec, hlarge])

theorem set_job_going (r : Router) (jobId : Option String) : Going r (r.set_job jobId) := by
  cases hrec : r.record with
  | none => exact .leave (by simp [Router.set_job, hrec])
  | some d =>
    by_cases hchange : d.jobId ≠ jobId ∨ d.poisonedCommit.isSome
    · exact .put { d with jobId, poisonedCommit := none }
        (by simp only [Router.set_job, hrec, if_pos hchange]) hrec
        (by simp only [Router.set_job, hrec, if_pos hchange]) ⟨fun _ ht => ht, fun hsome => hsome⟩
    · exact .leave (by simp only [Router.set_job, hrec, if_neg hchange])

theorem park_poisoned_going (r : Router) (jobId sourceCommit : Option String) :
    Going r (r.park_poisoned jobId sourceCommit) := by
  cases hrec : r.record with
  | none => exact .leave (by simp [Router.park_poisoned, hrec])
  | some d =>
    exact .put { d with jobId, poisonedCommit := some (Router.commitName sourceCommit) }
      (by simp only [Router.park_poisoned, hrec]) hrec (by simp only [Router.park_poisoned, hrec])
      ⟨fun _ ht => ht, fun hsome => hsome⟩

/-! ## Bundles in the order of their computations -/

/-- A bundle holds all that was committed by the time at which it was computed, and is dated from then on. -/
structure Published (clock : ℤ) (rows : List Row) (b : Built) : Prop where
  timely : Freshness.Timely Row.stamp rows b.rows b.computed
  lvt : b.fp.lvt = newestVote b.rows
  complete : b.fp.complete = true
  dated : b.computed ≤ b.fp.modified
  past : b.fp.modified ≤ clock

/-- The target is as late as the staged bundle, or was there before it. -/
def Ordered (b t : Built) : Prop := b.computed ≤ t.computed ∨ t.fp.modified < b.computed

/-- The staged bundle, or one that was staged earlier. -/
structure Staged (s : State ι) (b : Built) : Prop where
  published : Published s.clock s.rows b
  modified : b.fp.modified = b.computed
  outlived : ∃ x, s.staged = some x ∧ b.computed ≤ x.computed
  ordered : ∀ t, s.target = some t → Ordered b t

/-- The target, or an earlier one. -/
structure Served (s : State ι) (b : Built) : Prop where
  published : Published s.clock s.rows b
  outlived : ∃ x, s.target = some x ∧ b.computed ≤ x.computed

/-- A target for which the staged bundle is not newer was computed no earlier. -/
theorem computed_le_of_not_newer {clock : ℤ} {b t : Built} (hb : Published clock rows b)
    (ht : Published clock rows t) (hmodified : b.fp.modified = b.computed) (hordered : Ordered b t)
    (h : staged_newer b.fp (some t.fp) = false) : b.computed ≤ t.computed := by
  rcases hordered with hle | hbefore
  · exact hle
  · simp only [staged_newer, Bool.or_eq_false_iff, decide_eq_false_iff_not, Bool.and_eq_false_iff] at h
    obtain ⟨hnot, hsame⟩ := h
    -- The fingerprints can only differ in the newest vote, and that of the target is newer.
    have hlt : b.fp.lvt < t.fp.lvt := by
      rcases hsame with hne | hnlt
      · omega
      · omega
    rw [hb.lvt, ht.lvt] at hlt
    exact le_of_lt (hb.timely.lt_of_newest ht.timely hlt)

/-- A staged bundle that is newer than the target was computed no earlier. -/
theorem computed_le_of_newer {clock : ℤ} {b t : Built} (hb : Published clock rows b)
    (ht : Published clock rows t) (hmodified : b.fp.modified = b.computed)
    (h : staged_newer b.fp (some t.fp) = true) : t.computed ≤ b.computed := by
  simp only [staged_newer, Bool.or_eq_true, decide_eq_true_eq, Bool.and_eq_true] at h
  rcases h with hlt | ⟨-, hlt⟩
  · rw [hb.lvt, ht.lvt] at hlt
    exact le_of_lt (ht.timely.lt_of_newest hb.timely hlt)
  · have hdated := ht.dated
    omega

/-! ## What holds at every moment -/

/-- What the pass has copied of the record: the rows that it was told of are committed, and its mark has
reached them. -/
structure Demanded (s : State ι) (d : Demand) : Prop where
  rows : ∀ r ∈ d.told, r ∈ s.rows
  reached : ∀ r ∈ d.told, Reaches d.record.inputThroughMs r.stamp

/-- What the pass has read of the bundles. -/
structure Sighting (s : State ι) (d : Demand) (staged target : Option Built) : Prop where
  demand : Demanded s d
  ordered : ∀ b, staged = some b → ∀ t, target = some t → Ordered b t
  staged : ∀ b, staged = some b → Staged s b
  target : ∀ b, target = some b → Served s b

def PassHolds (s : State ι) : Pass → Prop
  | .idle | .asking _ => True
  | .recorded d => Demanded s d
  | .sighted d staged target | .judging d staged target => Sighting s d staged target
  | .promoting d b target => Sighting s d (some b) target
  | .promoted d b => Sighting s d (some b) none

/-- A row that the record was told of is missing from the target. -/
def Lacks (s : State ι) : Prop := ∃ r ∈ s.told, ∀ x, s.target = some x → r ∉ x.rows

structure Inv (s : State ι) : Prop where
  stamps : ∀ r ∈ s.rows, r.stamp ≤ s.clock
  staged : ∀ b, s.staged = some b → Staged s b
  target : ∀ b, s.target = some b → Published s.clock s.rows b
  pass : PassHolds s s.pass
  told : ∀ r ∈ s.told, r ∈ s.rows ∧ ∃ d, s.router.record = some d ∧ Reaches d.inputThroughMs r.stamp
  file : s.file.load.record = s.router.record.filter Disposition.isCounted
  unresolved : ∀ d, s.router.record = some d → Lacks s → d.firstUnresolvedMs.isSome = true

theorem inv_init (clock : ℤ) : Inv (State.init clock : State ι) where
  stamps _ hr := nomatch hr
  staged _ hb := nomatch hb
  target _ hb := nomatch hb
  pass := trivial
  told _ hr := nomatch hr
  file := rfl
  unresolved _ hd := nomatch hd

variable {s s' : State ι}

/-- The bundles of the state are no older than those before, and say no less of what was published. -/
structure Later (s s' : State ι) : Prop where
  published : ∀ b, (∃ x, (s.staged = some x ∨ s.target = some x) ∧ b.computed ≤ x.computed) →
    Published s.clock s.rows b → Published s'.clock s'.rows b
  rows : ∀ r ∈ s.rows, r ∈ s'.rows
  staged : ∀ x, s.staged = some x → ∃ x', s'.staged = some x' ∧ x.computed ≤ x'.computed
  target : ∀ x, s.target = some x → ∃ x', s'.target = some x' ∧ x.computed ≤ x'.computed
  ordered : ∀ b, Staged s b → ∀ t, s'.target = some t → Ordered b t

namespace Later

/-- A step that leaves the clock, the rows and the bundles. -/
theorem same (hclock : s'.clock = s.clock) (hrows : s'.rows = s.rows) (hstaged : s'.staged = s.staged)
    (htarget : s'.target = s.target) : Later s s' where
  published b _ hb := by rwa [hclock, hrows]
  rows r hr := by rwa [hrows]
  staged x hx := ⟨x, hstaged.trans hx, le_rfl⟩
  target x hx := ⟨x, htarget.trans hx, le_rfl⟩
  ordered b hb t ht := hb.ordered t (htarget.symm.trans ht)

theorem staged_of (h : Later s s') (hb : Staged s b) : Staged s' b := by
  obtain ⟨x, hx, hle⟩ := hb.outlived
  obtain ⟨x', hx', hle'⟩ := h.staged x hx
  exact ⟨h.published b ⟨x, .inl hx, hle⟩ hb.published, hb.modified, ⟨x', hx', hle.trans hle'⟩, h.ordered b hb⟩

theorem served_of (h : Later s s') (hb : Served s b) : Served s' b := by
  obtain ⟨x, hx, hle⟩ := hb.outlived
  obtain ⟨x', hx', hle'⟩ := h.target x hx
  exact ⟨h.published b ⟨x, .inr hx, hle⟩ hb.published, ⟨x', hx', hle.trans hle'⟩⟩

theorem demanded_of (h : Later s s') (hd : Demanded s d) : Demanded s' d :=
  ⟨fun r hr => h.rows r (hd.rows r hr), hd.reached⟩

theorem sighting_of (h : Later s s') (hd : Sighting s d staged target) :
    Sighting s' d staged target where
  demand := h.demanded_of hd.demand
  staged b hb := h.staged_of (hd.staged b hb)
  target b hb := h.served_of (hd.target b hb)
  ordered := hd.ordered

theorem pass_of (h : Later s s') {p : Pass} (hp : PassHolds s p) : PassHolds s' p := by
  cases p with
  | idle => trivial
  | asking d => trivial
  | recorded d => exact h.demanded_of hp
  | sighted | judging | promoting | promoted => exact h.sighting_of hp

end Later

/-- Of two targets the later one holds the rows of the earlier. -/
theorem Inv.not_lacks (h : Inv s) (hl : Later s s') (htarget : ∀ b, s'.target = some b →
    Published s'.clock s'.rows b) (htold : ∀ r ∈ s'.told, r ∈ s.told) (hlacks : Lacks s') : Lacks s := by
  obtain ⟨r, hr, hmissing⟩ := hlacks
  refine ⟨r, htold r hr, fun x hx hmem => ?_⟩
  obtain ⟨x', hx', hle⟩ := hl.target x hx
  have hbefore := hl.published x ⟨x, .inr hx, le_rfl⟩ (h.target x hx)
  exact hmissing x' hx' (hbefore.timely.mono (htarget x' hx').timely hle hmem)

/-- A step of the database keeps what holds, if what it publishes is as a bundle should be. -/
theorem Inv.later (h : Inv s) (hl : Later s s') (hstamps : ∀ r ∈ s'.rows, r.stamp ≤ s'.clock)
    (hstaged : ∀ b, s'.staged = some b → Staged s' b)
    (htarget : ∀ b, s'.target = some b → Published s'.clock s'.rows b)
    (hpass : PassHolds s s'.pass) (hrouter : s'.router = s.router) (hfile : s'.file = s.file)
    (htold : s'.told = s.told) : Inv s' where
  stamps := hstamps
  staged := hstaged
  target := htarget
  pass := hl.pass_of hpass
  told r hr := by
    obtain ⟨hmem, d, hd, hreach⟩ := h.told r (htold ▸ hr)
    exact ⟨hl.rows r hmem, d, hrouter ▸ hd, hreach⟩
  file := by rw [hfile, hrouter, h.file]
  unresolved d hd hlacks := h.unresolved d (hrouter ▸ hd)
    (h.not_lacks hl htarget (fun r hr => htold ▸ hr) hlacks)

/-- The same for a step that leaves the bundles. -/
theorem Inv.same (h : Inv s) (hclock : s'.clock = s.clock) (hrows : s'.rows = s.rows)
    (hstaged : s'.staged = s.staged) (htarget : s'.target = s.target) (hpass : PassHolds s s'.pass)
    (hrouter : s'.router = s.router) (hfile : s'.file = s.file) (htold : s'.told = s.told) : Inv s' := by
  have hl : Later s s' := .same hclock hrows hstaged htarget
  refine h.later hl ?_ (fun b hb => hl.staged_of (h.staged b (hstaged ▸ hb))) (fun b hb => ?_) hpass
    hrouter hfile htold
  · rw [hrows, hclock]
    exact h.stamps
  · rw [hrows, hclock]
    exact h.target b (htarget ▸ hb)

/-- The pass may stand anywhere where what it has copied is so. -/
theorem Inv.goTo (h : Inv s) {p : Pass} (hp : PassHolds s p) : Inv { s with pass := p } :=
  h.same rfl rfl rfl rfl hp rfl rfl rfl

/-! ## Steps of the database -/

theorem Inv.tick (h : Inv s) (hnow : s.clock ≤ now) : Inv { s with clock := now } := by
  have hpublished : ∀ b, Published s.clock s.rows b → Published now s.rows b :=
    fun b hb => ⟨hb.timely, hb.lvt, hb.complete, hb.dated, hb.past.trans hnow⟩
  have hl : Later s { s with clock := now } :=
    ⟨fun b _ hb => hpublished b hb, fun _ hr => hr, fun x hx => ⟨x, hx, le_rfl⟩, fun x hx => ⟨x, hx, le_rfl⟩,
      fun b hb => hb.ordered⟩
  exact h.later hl (fun r hr => (h.stamps r hr).trans hnow) (fun b hb => hl.staged_of (h.staged b hb))
    (fun b hb => hpublished b (h.target b hb)) h.pass rfl rfl rfl

/-- A row that no bundle's computation has passed leaves every bundle with all that it should hold. -/
theorem Inv.commit (h : Inv s) {r : Row} (hstamp : r.stamp ≤ s.clock)
    (hfair : ∀ b, s.staged = some b ∨ s.target = some b → b.computed < r.stamp) :
    Inv { s with rows := s.rows ++ [r] } := by
  have hpublished : ∀ b, (∃ x, (s.staged = some x ∨ s.target = some x) ∧ b.computed ≤ x.computed) →
      Published s.clock s.rows b → Published s.clock (s.rows ++ [r]) b := by
    rintro b ⟨x, hx, hle⟩ hb
    exact ⟨hb.timely.snoc (hle.trans_lt (hfair x hx)), hb.lvt, hb.complete, hb.dated, hb.past⟩
  have hl : Later s { s with rows := s.rows ++ [r] } :=
    ⟨hpublished, fun _ hr => List.mem_append_left _ hr, fun x hx => ⟨x, hx, le_rfl⟩,
      fun x hx => ⟨x, hx, le_rfl⟩, fun b hb => hb.ordered⟩
  refine h.later hl (fun q hq => ?_) (fun b hb => hl.staged_of (h.staged b hb))
    (fun b hb => hpublished b ⟨b, .inr hb, le_rfl⟩ (h.target b hb)) h.pass rfl rfl rfl
  rcases List.mem_append.1 hq with hq | hq
  · exact h.stamps q hq
  · rwa [List.mem_singleton.1 hq]

/-- What is published without a commit since its read is all that is committed. -/
theorem Inv.built (h : Inv s) (tick : ℤ) : Published s.clock s.rows (s.built s.rows tick) :=
  ⟨.refl h.stamps, rfl, rfl, le_rfl, le_rfl⟩

section

variable [DecidableEq ι]

theorem Inv.write (h : Inv s) (i : ι) (side : Side) (hfair : side = .staged → ∀ b, s.target = some b →
    b.fp.modified = s.clock → b.computed = s.clock) : Inv (s.publish i side s.rows) := by
  have hbuilt := h.built
  cases side with
  | staged =>
    have hordered : ∀ t, s.target = some t → Ordered (s.built s.rows (s.stagedTick + 1)) t := by
      intro t ht
      rcases eq_or_lt_of_le (h.target t ht).past with heq | hlt
      · exact .inl (le_of_eq (hfair rfl t ht heq).symm)
      · exact .inr hlt
    have hl : Later s (s.publish i .staged s.rows) :=
      ⟨fun b _ hb => hb, fun _ hr => hr, fun x hx => ⟨_, rfl,
        (h.staged x hx).published.dated.trans (h.staged x hx).published.past⟩,
        fun x hx => ⟨x, hx, le_rfl⟩, fun b hb => hb.ordered⟩
    refine h.later hl h.stamps (fun b hb => ?_) h.target h.pass rfl rfl rfl
    cases hb
    exact ⟨hbuilt _, rfl, ⟨_, rfl, le_rfl⟩, hordered⟩
  | own =>
    have hl : Later s (s.publish i .own s.rows) :=
      ⟨fun b _ hb => hb, fun _ hr => hr, fun x hx => ⟨x, hx, le_rfl⟩,
        fun x hx => ⟨_, rfl, (h.target x hx).dated.trans (h.target x hx).past⟩, fun b hb t ht => by
          cases ht
          exact .inl (hb.published.dated.trans hb.published.past)⟩
    refine h.later hl h.stamps (fun b hb => hl.staged_of (h.staged b hb)) (fun b hb => ?_) h.pass
      rfl rfl rfl
    cases hb
    exact hbuilt _

end

section

variable (h : Inv s)
include h

/-- A promoted bundle takes the place of one that was computed no later. -/
theorem Inv.promote (hb : s.staged = some b)
    (hnewer : isNewer (some b.fp) (s.target.map (·.fp)) = true) : Inv (s.promote b) := by
  have hstaged := h.staged b hb
  obtain ⟨hpublished, hmodified, -, -⟩ := hstaged
  have hcopy : Published s.clock s.rows ⟨b.rows, ⟨s.targetTick + 1, b.fp.lvt, s.clock, b.fp.complete⟩,
      b.computed⟩ :=
    ⟨hpublished.timely, hpublished.lvt, hpublished.complete, hpublished.dated.trans hpublished.past, le_rfl⟩
  have hle : ∀ x, s.target = some x → x.computed ≤ b.computed := by
    intro x hx
    refine computed_le_of_newer hpublished (h.target x hx) hmodified ?_
    rw [hx] at hnewer
    exact (Bool.and_eq_true_iff.1 hnewer).2
  have hl : Later s (s.promote b) :=
    ⟨fun b _ hb => hb, fun _ hr => hr, fun x hx => ⟨x, hx, le_rfl⟩, fun x hx => ⟨_, rfl, hle x hx⟩,
      fun c hc t ht => by
        obtain ⟨x, hx, hcx⟩ := hc.outlived
        cases hb.symm.trans hx
        cases ht
        exact .inl hcx⟩
  refine h.later hl h.stamps (fun c hc => hl.staged_of (h.staged c hc)) (fun c hc => ?_) h.pass rfl rfl rfl
  cases hc
  exact hcopy

/-! ## Operations on the record -/

/-- An operation keeps what holds, if the marks do not fall back, what it changes is saved, and the record is
unresolved where a row is lacking. -/
theorem Inv.route (hsaved : saved = true)
    (hsaves : op.2 = false → op.1.record = s.router.record)
    (hmark : ∀ d', op.1.record = some d' → ∀ d, s.router.record = some d →
    ∀ t, Reaches d.inputThroughMs t → Reaches d'.inputThroughMs t)
    (hunresolved : ∀ d', op.1.record = some d' → Lacks s → d'.firstUnresolvedMs.isSome = true) :
    Inv (s.route op saved) := by
  have hl : Later s (s.route op saved) := .same rfl rfl rfl rfl
  have htold : ∀ r ∈ (s.route op saved).told, r ∈ s.told ∧ op.1.record.isSome = true := by
    intro r hr
    by_cases hsome : op.1.record.isSome = true
    · exact ⟨by simpa [State.route, hsome] using hr, hsome⟩
    · simp [State.route, hsome] at hr
  refine ⟨h.stamps, fun b hb => hl.staged_of (h.staged b hb), h.target, hl.pass_of h.pass, fun r hr => ?_, ?_,
    fun d' hd' hlacks => ?_⟩
  · obtain ⟨hr, hsome⟩ := htold r hr
    obtain ⟨d', hd'⟩ := isSome_iff_exists.1 hsome
    obtain ⟨hmem, d, hd, hreach⟩ := h.told r hr
    exact ⟨hmem, d', hd', hmark d' hd' d hd _ hreach⟩
  · subst hsaved
    cases hop : op.2 with
    | true => simp [State.route, hop, Router.save, StateFile.load]
    | false => simpa [State.route, hop, hsaves hop] using h.file
  · exact hunresolved d' hd' (h.not_lacks hl h.target (fun r hr => (htold r hr).1) hlacks)

/-- A record that goes on keeps what holds; where there was none, no row had been told. -/
theorem Inv.going (hop : Going s.router op) (hsaved : saved = true) :
    Inv (s.route op saved) := by
  refine h.route hsaved hop.saves (fun d' hd' d hd => (hop.goes d d' hd hd').mark) (fun d' hd' hlacks => ?_)
  obtain ⟨r, hr, hmissing⟩ := hlacks
  obtain ⟨-, d, hd, -⟩ := h.told r hr
  exact (hop.goes d d' hd hd').unresolved (h.unresolved d hd ⟨r, hr, hmissing⟩)

section

variable (hbatch : ∀ r ∈ batch, r ∈ s.rows)
include hbatch

/-- A record that has reached the batch, and is unresolved, may be told of it. -/
theorem Inv.tell
    (hreach : ∀ d, s.router.record = some d → d.firstUnresolvedMs.isSome = true ∧
    ∀ r ∈ batch, Reaches d.inputThroughMs r.stamp) : Inv (s.tell batch) := by
  have hl : Later s (s.tell batch) := .same rfl rfl rfl rfl
  refine ⟨h.stamps, fun b hb => hl.staged_of (h.staged b hb), h.target, hl.pass_of h.pass, fun r hr => ?_,
    h.file, fun d hd _ => (hreach d hd).1⟩
  cases hrec : s.router.record with
  | none => simp [State.tell, hrec] at hr
  | some d =>
    rw [State.tell] at hr
    simp only [hrec, isSome_some, if_true, List.mem_append] at hr
    rcases hr with hr | hr
    · obtain ⟨hmem, d', hd', hreach'⟩ := h.told r hr
      exact ⟨hmem, d', hd', hreach'⟩
    · exact ⟨hbatch r hr, d, hrec, (hreach d hrec).2 r hr⟩

theorem Inv.observe {r' : Router} {saves saved : Bool} {c : Capacity.Class}
    {sizes : Option (ℤ × ℤ × ℤ)} {need : Option ℤ} {refused : Bool}
    (hsaved : saved = true)
    (hop : s.router.observe z sizes need (newestInput batch) refused true now = some (r', saves, c)) :
    Inv ((s.route (r', saves) saved).tell batch) := by
  obtain ⟨hsaves, hrec⟩ := observe_spec hop
  have hgoing : Going s.router (r', saves) := ⟨hsaves, fun d d' hd hd' => (hrec d' hd').1 d hd⟩
  refine (h.going hgoing hsaved).tell hbatch fun d hd => ?_
  obtain ⟨hfirst, hreach⟩ := (hrec d hd).2 (.inl rfl)
  exact ⟨hfirst, fun r hr => hreach _ (newestInput_le hr)⟩

theorem Inv.advance (hsaved : saved = true) :
    Inv ((s.route (s.router.advance (newestInput batch) now) saved).tell batch) := by
  refine (h.going (advance_going _ _ _) hsaved).tell hbatch fun d' hd' => ?_
  cases hrec : s.router.record with
  | none =>
    simp [State.route, Router.advance, hrec] at hd'
  | some d =>
    simp only [State.route, Router.advance, hrec] at hd'
    cases hd'
    obtain ⟨-, hfirst, hreach⟩ := advance_spec d (newestInput batch) now
    exact ⟨hfirst, fun r hr => hreach _ (newestInput_le hr)⟩

end

theorem Inv.resize {r' : Router} {saves saved : Bool} {c : Capacity.Class} {sizes : ℤ × ℤ × ℤ}
    (hsaved : saved = true)
    (hop : s.router.observe z (some sizes) none none false false now = some (r', saves, c)) :
    Inv (s.route (r', saves) saved) := by
  obtain ⟨hsaves, hrec⟩ := observe_spec hop
  exact h.going ⟨hsaves, fun d d' hd hd' => (hrec d' hd').1 d hd⟩ hsaved

/-- An operation that leaves no record saves that. -/
theorem Inv.forget (hnone : op.1.record = none)
    (hsaves : op.2 = false → s.router.record = none) (hsaved : saved = true) : Inv (s.route op saved) :=
  h.going ⟨fun hsame => hnone.trans (hsaves hsame).symm, fun _ _ _ hd' => (nomatch hnone.symm.trans hd')⟩ hsaved

/-- The poller starts with what the state file says of the record. -/
theorem Inv.restart : Inv { s with
    router := s.file.load
    told := if s.file.load.record.isSome then s.told else []
    pass := .idle } := by
  have hl : Later s { s with
    router := s.file.load
    told := if s.file.load.record.isSome then s.told else []
    pass := .idle } := .same rfl rfl rfl rfl
  have hrec : ∀ d, s.file.load.record = some d → s.router.record = some d := by
    intro d hd
    rw [h.file, filter_eq_some_iff] at hd
    exact hd.1
  have htold : ∀ r ∈ (if s.file.load.record.isSome then s.told else []),
      r ∈ s.told ∧ s.file.load.record.isSome = true := by
    intro r hr
    split at hr
    · next hsome => exact ⟨hr, hsome⟩
    · cases hr
  refine ⟨h.stamps, fun b hb => hl.staged_of (h.staged b hb), h.target, trivial, fun r hr => ?_, ?_,
    fun d hd hlacks => ?_⟩
  · obtain ⟨hr, hsome⟩ := htold r hr
    obtain ⟨d', hd'⟩ := isSome_iff_exists.1 hsome
    obtain ⟨hmem, d, hd, hreach⟩ := h.told r hr
    cases hd.symm.trans (hrec d' hd')
    exact ⟨hmem, _, hd', hreach⟩
  · simp [StateFile.load, filter_filter]
  · exact h.unresolved d (hrec d hd) (h.not_lacks hl h.target (fun r hr => (htold r hr).1) hlacks)

end

/-! ## Verdicts -/

/-- A staged bundle that covers the mark has every row that the mark has reached. -/
theorem Sighting.holds {target : Option Built}
    (h : Sighting s d (some b) target) (hcovers : covers d.record (some b.fp) = true)
    (hrows : ∀ r ∈ rows, r ∈ s.rows) (hreached : ∀ r ∈ rows, Reaches d.record.inputThroughMs r.stamp) :
    ∀ r ∈ rows, r ∈ b.rows := by
  intro r hr
  have hb := h.staged b rfl
  obtain ⟨m, hm, hle⟩ := hreached r hr
  rw [mem_def] at hm
  have hcover : m ≤ b.fp.modified := by
    simp only [covers, hm, any_some, all_some, Bool.and_eq_true, decide_eq_true_eq] at hcovers
    exact hcovers.2
  rw [hb.modified] at hcover
  exact hb.published.timely.whole r (hrows r hr) (hle.trans hcover)

section

variable (h : Inv s)
include h

theorem Inv.passAt {p : Pass} (hpass : s.pass = p) : PassHolds s p := hpass ▸ h.pass

/-- A waiting bundle has the rows, and so has the one that is staged now. -/
theorem Sighting.staged_holds
    (hd : Sighting s d staged target) (hrows : ∀ r ∈ rows, r ∈ s.rows)
    (hreached : ∀ r ∈ rows, Reaches d.record.inputThroughMs r.stamp)
    (hcovers : covers d.record (staged.map (·.fp)) = true) : Holds s.staged rows := by
  cases staged with
  | none => cases hcovers
  | some b =>
    have hb := hd.staged b rfl
    obtain ⟨x, hx, hle⟩ := hb.outlived
    refine ⟨x, hx, fun r hr => ?_⟩
    exact hb.published.timely.mono (h.staged x hx).published.timely hle
      (hd.holds hcovers hrows hreached r hr)

/-- If no newer bundle waits, the target has the rows. -/
theorem Sighting.target_holds
    (hd : Sighting s d staged target) (hrows : ∀ r ∈ rows, r ∈ s.rows)
    (hreached : ∀ r ∈ rows, Reaches d.record.inputThroughMs r.stamp)
    (hcovers : covers d.record (staged.map (·.fp)) = true)
    (hnot : isNewer (staged.map (·.fp)) (target.map (·.fp)) = false) : Holds s.target rows := by
  cases staged with
  | none => cases hcovers
  | some b =>
    have hb := hd.staged b rfl
    have hnewer : staged_newer b.fp (target.map (·.fp)) = false := by
      simpa [isNewer, usable, hb.published.complete] using hnot
    cases target with
    | none => cases hnewer
    | some t =>
      have ht := hd.target t rfl
      have hbt : b.computed ≤ t.computed := computed_le_of_not_newer hb.published ht.published
        hb.modified (hd.ordered b rfl t rfl) hnewer
      obtain ⟨x, hx, hle⟩ := ht.outlived
      refine ⟨x, hx, fun r hr => ?_⟩
      exact hb.published.timely.mono (h.target x hx).timely (hbt.trans hle)
        (hd.holds hcovers hrows hreached r hr)

/-- The rows of a record that the pass has the mark of. -/
theorem Inv.reached {rec' : Disposition} (hrec : s.router.record = some rec')
    (hsame : rec'.inputThroughMs = d.record.inputThroughMs) :
    (∀ r ∈ s.told, r ∈ s.rows) ∧ ∀ r ∈ s.told, Reaches d.record.inputThroughMs r.stamp := by
  refine ⟨fun r hr => (h.told r hr).1, fun r hr => ?_⟩
  obtain ⟨-, e, he, hreach⟩ := h.told r hr
  cases hrec.symm.trans he
  rwa [← hsame]

theorem Inv.settlesSoundly : SettlesSoundly s := by
  intro d staged target rec' hpass hrec hsame
  have hd : Sighting s d staged target := h.passAt hpass
  obtain ⟨hrows, hreached⟩ := h.reached hrec hsame
  refine ⟨fun hwaits => ?_, fun hresolves => ?_⟩
  · obtain ⟨hcovers, -⟩ := Bool.and_eq_true_iff.1 hwaits
    exact hd.staged_holds h hrows hreached hcovers
  · simp only [resolves, Bool.and_eq_true, Bool.not_eq_true'] at hresolves
    exact hd.target_holds h hrows hreached hresolves.1.1 hresolves.1.2

theorem Inv.remembers : Remembers s := fun d hd _ hlacks => h.unresolved d hd hlacks

theorem Inv.passAnswers [DecidableEq ι] (z : Sizing) : PassAnswers z s := by
  refine ⟨fun d staged target hpass => ?_, fun d hpass asked c s' hstep hc hasked hpoisoned hlarge => ?_⟩
  · have hd : Sighting s d staged target := h.passAt hpass
    obtain ⟨hrows, hreached⟩ := hd.demand
    cases hcovers : covers d.record (staged.map (·.fp)) with
    | true =>
      cases hnewer : isNewer (staged.map (·.fp)) (target.map (·.fp)) with
      | true =>
        exact .inl ⟨by rw [waits, hcovers, hnewer]; rfl, hd.staged_holds h hrows hreached hcovers⟩
      | false => exact .inr (.inl (hd.target_holds h hrows hreached hcovers hnewer))
    | false =>
      refine .inr (.inr fun saved s' hstep => ?_)
      simp only [Step, next, nextPass, hpass, hcovers, Option.some.injEq] at hstep
      rw [← hstep]
      rfl
  · simp only [Step, next, nextPass, hpass, Option.some.injEq] at hstep
    rw [← hstep]
    simp [hasked, hpoisoned, hlarge, hc]

/-! ## Every step keeps what holds -/

/-- What the pass settles is resolved only if nothing is lacking. -/
theorem Inv.settle
    (hpass : s.pass = .judging d staged target) (hsaved : saved = true) :
    Inv (s.route (s.router.settle (waits d.record (staged.map (·.fp)) (target.map (·.fp)))
      (resolves d.record (staged.map (·.fp)) (target.map (·.fp))) (some d.record.inputThroughMs)) saved) := by
  generalize hwaits : waits d.record (staged.map (·.fp)) (target.map (·.fp)) = w
  cases hrec : s.router.record with
  | none => exact h.going (.leave (by simp [Router.settle, hrec])) hsaved
  | some e =>
    by_cases hsame : e.inputThroughMs = d.record.inputThroughMs
    · cases hresolves : resolves d.record (staged.map (·.fp)) (target.map (·.fp)) with
      | false => exact h.going (.leave (by simp [Router.settle, hrec, hsame])) hsaved
      | true =>
        cases hfirst : e.firstUnresolvedMs with
        | none => exact h.going (.leave (by simp [Router.settle, hrec, hsame, hfirst])) hsaved
        | some t =>
          have hop : (s.router.settle w true (some d.record.inputThroughMs)).1.record =
              some { e with firstUnresolvedMs := none } := by
            simp [Router.settle, hrec, hsame, hfirst]
          refine h.route hsaved (fun hno => ?_) (fun e' he' e₀ he₀ => ?_) fun e' _ hlacks => ?_
          · simp [Router.settle, hrec, hsame, hfirst] at hno
          · cases hrec.symm.trans he₀
            cases hop.symm.trans he'
            exact fun _ ht => ht
          · obtain ⟨x, hx, hall⟩ := (h.settlesSoundly d staged target e hpass hrec hsame).2 hresolves
            obtain ⟨r, hr, hmissing⟩ := hlacks
            exact absurd (hall r hr) (hmissing x hx)
    · exact h.going (.leave (by simp [Router.settle, hrec, Ne.symm hsame])) hsaved

theorem Inv.nextPass {e : Event ι} (hfair : Fair s e) (hstep : Handoff.nextPass s e = some s') :
    Inv s' := by
  cases e with
  | passRecord =>
    simp only [Handoff.nextPass] at hstep
    split at hstep
    · next d hpass hrec =>
        split at hstep
        · cases hstep
          refine h.goTo ⟨fun r hr => (h.told r hr).1, fun r hr => ?_⟩
          obtain ⟨-, d', hd', hreach⟩ := h.told r hr
          cases hrec.symm.trans hd'
          exact hreach
        · cases hstep
    · cases hstep
  | passRead =>
    simp only [Handoff.nextPass] at hstep
    split at hstep
    · next d hpass =>
        cases hstep
        have hd : Demanded s d := h.passAt hpass
        exact h.goTo ⟨hd, fun b hb t ht => (h.staged b hb).ordered t ht, h.staged,
          fun b hb => ⟨h.target b hb, b, hb, le_rfl⟩⟩
    · cases hstep
  | passCheck receipt =>
    simp only [Handoff.nextPass] at hstep
    split at hstep
    · next d staged target hpass =>
        have hd : Sighting s d staged target := h.passAt hpass
        split at hstep
        · cases hstep
          exact h.goTo trivial
        · split at hstep
          · split at hstep
            · cases hstep
              exact h.goTo hd
            · cases hstep
              exact h.goTo hd
          · cases hstep
            exact h.goTo hd
    · cases hstep
  | passPromote accepted =>
    simp only [Handoff.nextPass] at hstep
    split at hstep
    · next d b target hpass =>
        have hd : Sighting s d (some b) target := h.passAt hpass
        split at hstep
        · next current hcurrent =>
            split at hstep
            · next haccepted =>
                cases hstep
                simp only [State.promotable, Bool.and_eq_true, hcurrent, map_some] at haccepted
                have hkeep : Inv (s.promote current) := h.promote hcurrent haccepted.2.2
                have hafter : Sighting (s.promote current) d (some b) target := hkeep.passAt hpass
                exact hkeep.goTo ⟨hafter.demand, fun _ _ _ ht => (nomatch ht), hafter.staged,
                  fun _ ht => (nomatch ht)⟩
            · cases hstep
              exact h.goTo hd
        · cases hstep
          exact h.goTo hd
    · cases hstep
  | passReread =>
    simp only [Handoff.nextPass] at hstep
    split at hstep
    · next d b hpass =>
        cases hstep
        have hd : Sighting s d (some b) none := h.passAt hpass
        exact h.goTo ⟨hd.demand, fun c hc t ht => (hd.staged c hc).ordered t ht, hd.staged,
          fun c hc => ⟨h.target c hc, c, hc, le_rfl⟩⟩
    · cases hstep
  | passSettle saved =>
    simp only [Handoff.nextPass] at hstep
    split at hstep
    · next d staged target hpass =>
        cases hstep
        refine (h.settle hpass hfair).goTo ?_
        split
        · trivial
        · trivial
    · cases hstep
  | passAsk asked sourceCommit =>
    simp only [Handoff.nextPass] at hstep
    split at hstep
    · cases hstep
      exact h.same rfl rfl rfl rfl trivial rfl rfl rfl
    · cases hstep
  | _ => cases hstep

end

section

variable [DecidableEq ι]

/-- One step under the condition keeps what holds. -/
theorem Inv.step {e : Event ι} (h : Inv s) (hstep : FairStep z s e s') : Inv s' := by
  obtain ⟨hfair, hstep⟩ := hstep
  cases e with
  | tick now =>
    simp only [Step, next] at hstep
    split at hstep
    · next hnow =>
        cases hstep
        exact h.tick hnow
    · cases hstep
  | commit r =>
    simp only [Step, next] at hstep
    split at hstep
    · next hr =>
        cases hstep
        refine h.commit hr.2 fun b hb => ?_
        rcases hb with hb | hb
        · exact hfair.1 b hb
        · exact hfair.2 b hb
    · cases hstep
  | start i side =>
    simp only [Step, next] at hstep
    split at hstep
    · cases hstep
      exact h.same rfl rfl rfl rfl h.pass rfl rfl rfl
    · cases hstep
  | write i =>
    simp only [Step, next] at hstep
    split at hstep
    · next side rows hreading =>
        cases hstep
        simp only [Fair, FairWrite, hreading] at hfair
        obtain ⟨rfl, hpromoted⟩ := hfair
        exact h.write i side hpromoted
    · cases hstep
  | stop i =>
    cases hstep
    exact h.same rfl rfl rfl rfl h.pass rfl rfl rfl
  | resolve i saved =>
    simp only [Step, next] at hstep
    split at hstep
    · cases hstep
      have hkeep : Inv { s with computes := Function.update s.computes i none } :=
        h.same rfl rfl rfl rfl h.pass rfl rfl rfl
      exact hkeep.forget rfl (fun hno => isNone_iff_eq_none.1 (by simpa [Router.resolved] using hno)) hfair
    · cases hstep
  | observe batch sizes need refused now saved =>
    simp only [Step, next] at hstep
    split at hstep
    · next hbatch =>
        obtain ⟨⟨r', saves, c⟩, hop, hs'⟩ := map_eq_some_iff.1 hstep
        cases hs'
        exact h.observe hbatch hfair hop
    · cases hstep
  | advance batch now saved =>
    simp only [Step, next] at hstep
    split at hstep
    · next hbatch =>
        cases hstep
        exact h.advance hbatch hfair
    · cases hstep
  | resize sizes now saved =>
    simp only [Step, next] at hstep
    obtain ⟨⟨r', saves, c⟩, hop, hs'⟩ := map_eq_some_iff.1 hstep
    cases hs'
    exact h.resize hfair hop
  | restage nonce mark now saved =>
    simp only [Step, next] at hstep
    split at hstep
    · cases hstep
      exact h.going (restage_going s.router nonce mark now) hfair
    · cases hstep
  | trim saved =>
    cases hstep
    exact h.forget rfl (fun hno => (nomatch hno)) hfair
  | answer a sourceCommit saved =>
    cases a with
    | job j =>
      cases hstep
      exact h.going (set_job_going s.router (some j)) hfair
    | poisoned j =>
      cases hstep
      exact h.going (park_poisoned_going s.router (some j) sourceCommit) hfair
  | restart =>
    cases hstep
    exact h.restart
  | passRecord | passRead | passCheck | passPromote | passReread | passSettle | passAsk =>
    exact h.nextPass hfair hstep

/-- In every run under the condition the hand-off forgets no input. -/
theorem handoff_contract {z : Sizing} {clock : ℤ} {es : List (Event ι)}
    (hrun : Run (FairStep z) (State.init clock) es s) : Remembers s ∧ SettlesSoundly s ∧ PassAnswers z s := by
  have h : Inv s := hrun.keeps Inv (inv_init clock) fun _ _ _ h hstep => h.step hstep
  exact ⟨h.remembers, h.settlesSoundly, h.passAnswers z⟩

end

/-! ## Two runs -/

section Runs

/-- Every conversation is too large for this poller. -/
private def allLarge : Sizing := ⟨fun _ => 1, fun _ _ => .large, "binding"⟩

private def vote (id : ℕ) (stamp : ℤ) : Row := ⟨id, .vote, stamp⟩

/-- A vote arrives, the batch is routed, the queue has a job, and its child reads the rows. -/
private def untilRead : List (Event Unit) :=
  [.tick 1, .commit (vote 1 1), .observe [vote 1 1] none (some 1) false 1 true, .answer (.job "job") none true,
    .start () .staged]

/-- A pass that finds a receipt and promotes at the time. -/
private def promotingAt (now : ℤ) : List (Event Unit) :=
  [.passRecord, .passRead, .passCheck true, .tick now, .passPromote true, .passReread, .passSettle true]

private def fairNext (s : State Unit) (e : Event Unit) : Option (State Unit) :=
  if Fair s e then next allLarge s e else none

private theorem fairNext_step {s : State Unit} {e : Event Unit} {s' : State Unit}
    (h : fairNext s e = some s') : FairStep allLarge s e s' := by
  unfold fairNext at h
  split at h
  · next hfair => exact ⟨hfair, h⟩
  · cases h

private theorem settled_run : ((untilRead ++ .tick 2 :: .write () :: promotingAt 3).foldlM fairNext
    (State.init 0)).map (fun s => (s.router.record.map (·.firstUnresolvedMs), s.told, s.target.map (·.rows))) =
      some (some none, [vote 1 1], some [vote 1 1]) := by
  decide +kernel

theorem handoff_contract_settled : ∃ s : State Unit,
    Run (FairStep allLarge) (State.init 0) (untilRead ++ .tick 2 :: .write () :: promotingAt 3) s ∧
      s.told = [vote 1 1] ∧ Remembers s := by
  obtain ⟨s, hs, hend⟩ := map_eq_some_iff.1 settled_run
  have hrun := (run_of_foldlM hs).mono fun _ _ _ h => fairNext_step h
  exact ⟨s, hrun, congrArg (fun x => x.2.1) hend, (handoff_contract hrun).1⟩

private theorem forgotten_run : ((untilRead ++ .tick 2 :: .commit (vote 2 2) :: .advance [vote 2 2] 2 true ::
    .tick 3 :: .write () :: promotingAt 4).foldlM (next allLarge) (State.init 0)).map
      (fun s => (s.router.record.map (fun d => (d.disposition, d.firstUnresolvedMs)), s.told,
        s.target.map (·.rows))) =
      some (some (.large, none), [vote 1 1, vote 2 2], some [vote 1 1]) := by
  decide +kernel

/-- A vote between the read and the write of the child is forgotten: the record is settled, and the promoted
bundle lacks it. -/
theorem vote_during_build_forgotten : ¬ ∀ (z : Sizing) (clock : ℤ) (es : List (Event Unit)) (s : State Unit),
    Run (Step z) (State.init clock) es s → Remembers s ∧ SettlesSoundly s ∧ PassAnswers z s := by
  intro hall
  obtain ⟨s, hs, hend⟩ := map_eq_some_iff.1 forgotten_run
  have hremembers := (hall allLarge 0 _ s (run_of_foldlM hs)).1
  obtain ⟨d, hd, hdisp⟩ := map_eq_some_iff.1 (congrArg Prod.fst hend)
  obtain ⟨x, hx, hrows⟩ := map_eq_some_iff.1 (congrArg (fun x => x.2.2) hend)
  have htold : s.told = [vote 1 1, vote 2 2] := congrArg (fun x => x.2.1) hend
  have hlarge : d.disposition = .large := congrArg Prod.fst hdisp
  have hfirst : d.firstUnresolvedMs = none := congrArg Prod.snd hdisp
  have hlacks : ∃ r ∈ s.told, ∀ x, s.target = some x → r ∉ x.rows := by
    refine ⟨vote 2 2, by simp [htold], fun y hy => ?_⟩
    cases hx.symm.trans hy
    rw [hrows]
    decide
  have hsome := hremembers d hd (by rw [hlarge]; rfl) hlacks
  simp [hfirst] at hsome

end Runs

end Polis.Poller.Handoff
