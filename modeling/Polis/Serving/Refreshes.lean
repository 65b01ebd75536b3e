import Mathlib.Algebra.Order.Field.Rat

/-!
# Refreshes that callers share

A call that the cache does not answer joins the flight of its conversation, or makes one when there is none
that is alive and has not failed. The flight has a lock; who holds it takes what an earlier holder has left
there, looks into the cache once more, or reads, and leaves a value or an error. A flight lives as long as
a call has it. A caller may go away at each wait, but a read that has begun keeps the lock until its end.

What is read and made of it is a service, and the cache may forget any entry at any time.

Reference: `queue-rs/polis-api/src/pca.rs` (`Refresh`, `Refreshes`, `Pca::get_pca`, `Pca::present`).
-/

namespace Polis.Refreshes

open Function

structure RefreshError where
  message : String
  unavailable : Bool

/-- What follows when a value is there: a value in its place, an entry for the cache, and the answer. -/
structure Finish (τ χ ω : Type*) where
  value : Option τ
  keep : Option χ
  answer : ω

/-- The parts of a refresh: `ρ` a request, `τ` the value of a flight, `χ` an entry of the cache, `σ` what is
stored for a conversation, `κ` what a query gives, `ω` an answer. -/
structure Service (ρ τ χ σ κ ω : Type*) where
  /-- An answer without a refresh. -/
  hit : ρ → Option χ → ℤ → Option ω
  /-- The value of a flight can be used. -/
  shares : ρ → τ → ℤ → Bool
  /-- A row must be read. -/
  reads : ρ → Bool
  query : Option χ → σ → κ
  /-- The last argument is the number of a new allocation. -/
  build : ρ → Option χ → Option κ → ℤ → ℕ → Except RefreshError τ
  finish : ρ → τ → ℤ → ℕ → Except RefreshError (Finish τ χ ω)

/-- How a call came to its answer. -/
inductive Role (τ : Type*)
  | cached
  /-- By the error or the value of a flight, when it was seen. -/
  | refused (flight : ℕ)
  | shared (flight : ℕ) (value : τ) (seen : ℤ)
  /-- By its own read, which failed, or which gave a value at a time. -/
  | failed (flight : ℕ)
  | led (flight : ℕ) (value : τ) (ended : ℤ)
  | timedOut

/-- Where a call stands. -/
inductive Call (ρ τ χ κ ω : Type*)
  | idle
  | missed (zid : ℤ) (r : ρ)
  | waiting (zid : ℤ) (r : ρ) (flight : ℕ) (deadline : ℕ)
  /-- The lock of the flight is held from here on. -/
  | holding (zid : ℤ) (r : ρ) (flight : ℕ)
  | dispatching (zid : ℤ) (r : ρ) (flight : ℕ) (hint : Option χ)
  /-- A detached read has no caller. -/
  | reading (zid : ℤ) (r : ρ) (flight : ℕ) (hint : Option χ) (rows : Option κ) (detached : Bool)
  | back (zid : ℤ) (r : ρ) (flight : ℕ) (hint : Option χ) (rows : Option κ)
  | settled (zid : ℤ) (r : ρ) (flight : ℕ) (role : Role τ) (value : τ)
  | done (zid : ℤ) (r : ρ) (role : Role τ) (time : ℤ) (answer : Except RefreshError ω)
  | gone

namespace Call

variable {ρ τ χ κ ω : Type*}

/-- The flight that the call has. -/
def arc : Call ρ τ χ κ ω → Option (ℤ × ℕ)
  | waiting zid _ f _ | holding zid _ f | dispatching zid _ f _ | reading zid _ f _ _ _ | back zid _ f _ _
  | settled zid _ f _ _ => some (zid, f)
  | _ => none

/-- The flight whose lock the call has. -/
def holds : Call ρ τ χ κ ω → Option ℕ
  | holding _ _ f | dispatching _ _ f _ | reading _ _ f _ _ _ | back _ _ f _ _ | settled _ _ f _ _ => some f
  | _ => none

end Call

structure Flight (τ : Type*) where
  zid : ℤ
  value : Option (Except RefreshError τ)
  failed : Bool

structure State (ρ τ χ σ κ ω : Type*) where
  cache : ℤ → Option χ
  /-- The flight of a conversation, which may be dead. -/
  entries : ℤ → Option ℕ
  flight : ℕ → Flight τ
  /-- The next flight, and the next allocation. -/
  fresh : ℕ
  allocated : ℕ
  calls : ℕ → Call ρ τ χ κ ω
  /-- The calls that have begun. -/
  began : List ℕ
  stored : ℤ → σ
  /-- What was stored for conversations. -/
  history : List (ℤ × σ)
  /-- What was left in flights. -/
  log : List (ℕ × Except RefreshError τ)
  /-- `now_ms` -/
  clock : ℤ
  instant : ℕ

/-- What the cache does with an entry. -/
inductive Retain
  | kept
  | dropped
  | unchanged

inductive Event (ρ σ : Type*)
  /-- A call begins with a look into the cache. -/
  | start (c : ℕ) (zid : ℤ) (r : ρ)
  | acquire (c : ℕ)
  | lock (c : ℕ)
  | timeout (c : ℕ)
  /-- The holder of the lock looks at the flight and the cache. -/
  | look (c : ℕ)
  /-- The pool gives a connection, or none. -/
  | dispatch (c : ℕ)
  | refuse (c : ℕ) (message : String)
  | query (c : ℕ)
  | fail (c : ℕ) (message : String)
  | panic (c : ℕ)
  | return (c : ℕ)
  | build (c : ℕ)
  | answer (c : ℕ) (retain : Retain)
  /-- The caller goes away. -/
  | cancel (c : ℕ)
  | evict (zid : ℤ)
  | publish (zid : ℤ) (row : σ)
  | tick (clock : ℤ) (duration : ℕ)

section Machine

variable {ρ τ χ σ κ ω : Type*}

namespace State

/-- Before anything is stored. -/
def init (blank : σ) : State ρ τ χ σ κ ω :=
  ⟨fun _ => none, fun _ => none, fun _ => ⟨0, none, false⟩, 0, 0, fun _ => .idle, [], fun _ => blank, [], [], 0, 0⟩

variable (s : State ρ τ χ σ κ ω)

def setCall (c : ℕ) (call : Call ρ τ χ κ ω) : State ρ τ χ σ κ ω :=
  { s with calls := update s.calls c call }

/-- A call has the flight. -/
def alive (f : ℕ) : Bool := s.began.any fun c => (s.calls c).arc.map Prod.snd = some f

def locked (f : ℕ) : Bool := s.began.any fun c => (s.calls c).holds = some f

/-- The flight that a new call joins. -/
def joinable (zid : ℤ) : Option ℕ := (s.entries zid).filter fun f => s.alive f && !(s.flight f).failed

/-- A flight is made. -/
def «open» (zid : ℤ) : State ρ τ χ σ κ ω :=
  { s with entries := update s.entries zid (some s.fresh), fresh := s.fresh + 1
           flight := update s.flight s.fresh ⟨zid, none, false⟩ }

/-- `Refreshes::acquire`, under the lock of the map. -/
def acquire (c : ℕ) (zid : ℤ) (r : ρ) (deadline : ℕ) : State ρ τ χ σ κ ω :=
  match s.joinable zid with
  | some f => s.setCall c (.waiting zid r f deadline)
  | none => (s.open zid).setCall c (.waiting zid r s.fresh deadline)

/-- A value or an error is left in a flight; an error fails it. -/
def leave (f : ℕ) (value : Except RefreshError τ) : State ρ τ χ σ κ ω :=
  { s with flight := update s.flight f
             { s.flight f with value := some value
                               failed := match value with
                                 | .ok _ => (s.flight f).failed
                                 | .error _ => true }
           log := (f, value) :: s.log }

/-- The call ends with an error, which it leaves in its flight. -/
def failWith (c : ℕ) (zid : ℤ) (r : ρ) (f : ℕ) (e : RefreshError) : State ρ τ χ σ κ ω :=
  (s.leave f (.error e)).setCall c (.done zid r (.failed f) s.clock (.error e))

/-- The cache after an entry was given to it. -/
def retained (zid : ℤ) (keep : Option χ) : Retain → ℤ → Option χ
  | .kept => update s.cache zid (keep.or (s.cache zid))
  | .dropped => update s.cache zid none
  | .unchanged => s.cache

end State

variable (svc : Service ρ τ χ σ κ ω) (patience : ℕ)

/-- What the holder of a lock sees. -/
def looked (s : State ρ τ χ σ κ ω) (zid : ℤ) (r : ρ) (f : ℕ) : Call ρ τ χ κ ω :=
  let else' := match svc.hit r (s.cache zid) s.clock with
    | some a => .done zid r .cached s.clock (.ok a)
    | none => if svc.reads r then .dispatching zid r f (s.cache zid) else .back zid r f (s.cache zid) none
  match (s.flight f).value with
  | some (.error e) => .done zid r (.refused f) s.clock (.error e)
  | some (.ok v) => if svc.shares r v s.clock then .settled zid r f (.shared f v s.clock) v else else'
  | none => else'

/-- A step, when it can be made. -/
def step (s : State ρ τ χ σ κ ω) : Event ρ σ → Option (State ρ τ χ σ κ ω)
  | .start c zid r => match s.calls c with
      | .idle => some ({ s with began := c :: s.began }.setCall c (match svc.hit r (s.cache zid) s.clock with
          | some a => .done zid r .cached s.clock (.ok a)
          | none => .missed zid r))
      | _ => none
  | .acquire c => match s.calls c with
      | .missed zid r => some (s.acquire c zid r (s.instant + patience))
      | _ => none
  | .lock c => match s.calls c with
      | .waiting zid r f _ => if s.locked f then none else some (s.setCall c (.holding zid r f))
      | _ => none
  | .timeout c => match s.calls c with
      | .waiting zid r _ deadline =>
        if deadline ≤ s.instant then
          some (s.setCall c (.done zid r .timedOut s.clock (.error ⟨"pca refresh wait timed out", true⟩)))
        else none
      | _ => none
  | .look c => match s.calls c with
      | .holding zid r f => some (s.setCall c (looked svc s zid r f))
      | _ => none
  | .dispatch c => match s.calls c with
      | .dispatching zid r f hint => some (s.setCall c (.reading zid r f hint none false))
      | _ => none
  | .refuse c message => match s.calls c with
      | .dispatching zid r f _ => some (s.failWith c zid r f ⟨message, true⟩)
      | _ => none
  | .query c => match s.calls c with
      | .reading zid r f hint none detached =>
        some (s.setCall c (.reading zid r f hint (some (svc.query hint (s.stored zid))) detached))
      | _ => none
  | .fail c message => match s.calls c with
      | .reading zid r f _ none false => some (s.failWith c zid r f ⟨message, true⟩)
      | .reading _ _ f _ none true => some ((s.leave f (.error ⟨message, true⟩)).setCall c .gone)
      | _ => none
  -- a panic leaves nothing in the flight
  | .panic c => match s.calls c with
      | .reading zid r f _ _ false =>
        some (s.setCall c (.done zid r (.failed f) s.clock (.error ⟨"task panicked", true⟩)))
      | .reading _ _ _ _ _ true => some (s.setCall c .gone)
      | _ => none
  | .return c => match s.calls c with
      | .reading zid r f hint (some rows) false => some (s.setCall c (.back zid r f hint (some rows)))
      | .reading _ _ _ _ (some _) true => some (s.setCall c .gone)
      | _ => none
  | .build c => match s.calls c with
      | .back zid r f hint rows => match svc.build r hint rows s.clock s.allocated with
          | .error e => some (s.failWith c zid r f e)
          | .ok v => some ({ s.leave f (.ok v) with allocated := s.allocated + 1 }.setCall c
              (.settled zid r f (.led f v s.clock) v))
      | _ => none
  | .answer c retain => match s.calls c with
      | .settled zid r f role v => match svc.finish r v s.clock s.allocated with
          | .error e => some (s.failWith c zid r f e)
          | .ok p =>
            let s' := match p.value with
              | some v => s.leave f (.ok v)
              | none => s
            some ({ s' with cache := s.retained zid p.keep retain, allocated := s.allocated + 1 }.setCall c
              (.done zid r role s.clock (.ok p.answer)))
      | _ => none
  | .cancel c => match s.calls c with
      | .missed _ _ | .waiting _ _ _ _ | .dispatching _ _ _ _ => some (s.setCall c .gone)
      | .reading zid r f hint rows false => some (s.setCall c (.reading zid r f hint rows true))
      | _ => none
  | .evict zid => some { s with cache := update s.cache zid none }
  | .publish zid row => some { s with stored := update s.stored zid row, history := (zid, row) :: s.history }
  | .tick clock duration => some { s with clock := clock, instant := s.instant + duration }

inductive Reachable (blank : σ) : State ρ τ χ σ κ ω → Prop
  | init : Reachable blank (.init blank)
  | step {s s' : State ρ τ χ σ κ ω} {e : Event ρ σ} : Reachable blank s → step svc patience s e = some s' →
      Reachable blank s'

end Machine

/-! ## The two services -/

/-- A body with its compressed text, by the number of its allocation. -/
structure PcaItem (β : Type*) where
  arc : ℕ
  pojo : β
  expiration : ℤ
  synthesized : Bool
  reusable : Bool

/-- `TTL_MS` -/
def ttl : ℤ := 3000

/-- What is made of bodies: `δ` the text of a row, `β` an object. -/
structure Bodies (δ : Type*) (β : Type*) where
  /-- `row_tick as f64`, also as the server casts it. -/
  float : ℤ → ℚ
  /-- `js::parse`, to an object. -/
  parse : δ → Except RefreshError β
  setTick : β → ℚ → β
  /-- `math_tick` of a body as a number; none is `NaN`. -/
  tick : β → Option ℚ
  /-- `lastVoteTimestamp` is a number, or is truthy. -/
  voted : β → Bool
  /-- `process_math_object`, `ensure_complete` and the removal of `zid`. -/
  complete : β → ℤ → Except RefreshError β
  /-- `ensure_complete` of nothing. -/
  template : ℤ → β
  /-- `compress::gzip` of the text. -/
  gzip : β → Except RefreshError Unit
  /-- A part that `present` fills in is missing. -/
  lacks : β → Bool
  /-- A missing part is filled with the approved comments. -/
  lacksTids : β → Bool
  fill : β → List ℤ → β

variable {δ β : Type*} (b : Bodies δ β)

/-- `MathRefresh` -/
inductive MathRefresh (β : Type*)
  | ready (item : PcaItem β) (outcome : String)
  | uncommitted (pojo : β) (expiration : ℤ)

def MathRefresh.expiration : MathRefresh β → ℤ
  | ready item _ => item.expiration
  | uncommitted _ e => e

/-- `Pca::build` -/
def pack (pojo : β) (synthesized reusable : Bool) (now : ℤ) (arc : ℕ) : Except RefreshError (PcaItem β) :=
  (b.gzip pojo).map fun _ => ⟨arc, pojo, now + ttl, synthesized, reusable⟩

/-- A number or `NaN` is above. -/
def above (x : Option ℚ) (y : ℚ) : Bool := x.any (y < ·)

def atMost (x : Option ℚ) (y : ℚ) : Bool := x.any (· ≤ y)

/-- `answer`; the tick -1 is asked for the latest. -/
def answer (item : PcaItem β) (requested : ℚ) : Option (PcaItem β) :=
  if requested = -1 ∨ above (b.tick item.pojo) requested then some item else none

/-- `db::math_main_refresh`, of the row of the conversation. -/
def mathMainRefresh (held : Option ℚ) (row : Option (ℤ × δ)) : Option (ℤ × Option δ) :=
  row.map fun r => (r.1, if held = some (b.float r.1) then none else some r.2)

/-- The cached body that may be served again. -/
def reusableOf (cached : Option (PcaItem β)) : Option (PcaItem β) := cached.filter (·.reusable)

/-- What `get_pca` makes of a row. -/
def builtMath (cached : Option (PcaItem β)) (row : Option (ℤ × Option δ)) (now : ℤ) (arc : ℕ) :
    Except RefreshError (MathRefresh β) :=
  match row, reusableOf cached with
  | some (_, none), some item => .ok (.ready { item with expiration := now + ttl, arc := arc } "revalidated")
  | some (rowTick, some data), _ => do
    let pojo := b.setTick (← b.parse data) (b.float rowTick)
    if b.float rowTick ≤ -1 then pure (.uncommitted pojo (now + ttl))
    else
      let item ← pack b (← b.complete pojo now) false (0 ≤ b.float rowTick && b.voted pojo) now arc
      pure (.ready item "miss")
  | _, _ => (pack b (b.template now) true false now arc).map fun item => .ready item "miss"

/-- `refreshed_answer` -/
def refreshedAnswer (item : PcaItem β) (requested : ℚ) : Option (PcaItem β) × Option (PcaItem β) :=
  if (item.synthesized ∧ requested ≠ -1) ∨
      (!item.synthesized ∧ atMost (b.tick item.pojo) (-1) ∧ atMost (b.tick item.pojo) requested) then (none, none)
  else (some item, answer b item requested)

/-- `finish_math_refresh` -/
def finishMathRefresh (requested : ℚ) (value : MathRefresh β) (now : ℤ) (arc : ℕ) :
    Except RefreshError (Finish (MathRefresh β) (PcaItem β) (Option (PcaItem β))) :=
  match value with
  | .ready item _ => .ok ⟨none, (refreshedAnswer b item requested).1, (refreshedAnswer b item requested).2⟩
  | .uncommitted pojo _ =>
    if atMost (b.tick pojo) requested then .ok ⟨none, none, none⟩
    else do
      let item ← pack b (← b.complete pojo now) false false now arc
      pure ⟨some (.ready item "miss"), (refreshedAnswer b item requested).1, (refreshedAnswer b item requested).2⟩

/-- `Pca::get_pca` -/
def getPca : Service ℚ (MathRefresh β) (PcaItem β) (Option (ℤ × δ)) (Option (ℤ × Option δ)) (Option (PcaItem β)) where
  hit requested cached now := (cached.filter (now < ·.expiration)).map (answer b · requested)
  shares _ value now := now < value.expiration
  reads _ := true
  query cached row := mathMainRefresh b ((reusableOf cached).bind fun item => b.tick item.pojo) row
  build _ cached rows now arc := builtMath b cached rows.join now arc
  finish := finishMathRefresh b

structure Presentation (β : Type*) where
  source : PcaItem β
  presented : PcaItem β
  expiration : ℤ

/-- The presentation is of this very item, and good. -/
def Presentation.serves (p : Presentation β) (item : PcaItem β) (now : ℤ) : Bool :=
  p.source.arc = item.arc && now < p.expiration

/-- `Pca::present` -/
def present : Service (PcaItem β) (Presentation β) (Presentation β) (List ℤ) (List ℤ) (PcaItem β) where
  hit item cached now :=
    if !b.lacks item.pojo then some item else (cached.filter (·.serves item now)).map (·.presented)
  shares item p now := p.serves item now
  reads item := b.lacksTids item.pojo
  query _ tids := tids
  build item _ tids now arc := do
    let pojo := b.fill item.pojo (tids.getD [])
    let presented ← pack b pojo item.synthesized item.reusable now arc
    pure ⟨item, { presented with expiration := item.expiration }, now + ttl⟩
  -- a joiner gives nothing to the cache, which is one of the ways to retain
  finish _ p _ _ := .ok ⟨none, some p, p.presented⟩

end Polis.Refreshes
