import Polis.Common.Lru
import Mathlib.Data.Int.Notation

/-!
# Comment priorities, read once for many callers

A call for the priorities of a conversation takes an entry of the cache that has not expired, joins the
flight of a call that reads them already, or leads a flight of its own. The leader reads the row outside of
all locks, and then puts the entry into the cache, gives the outcome to the flight and removes the flight,
also when the read panics. Calls run in threads, so that a step is what a thread does under one lock, or
one step of the read; the clock of the system may be set to any time between two steps.

Reference: `queue-rs/polis-api/src/next_priorities.rs`.
-/

namespace Polis.Priorities

open Function

/-- The math environment and the conversation. -/
abbrev Key := String × ℤ

variable {α β : Type*}

/-- A row of `math_main`: its tick, and the text of `comment-priorities` when `data` is an object and has it. -/
structure MathRow (α : Type*) where
  tick : ℤ
  data : Option (Option α)

/-- The wrapper that `data` is keeps the parsed member alone, if there is one. -/
structure Entry (β : Type*) where
  /-- `until` -/
  validUntil : ℤ
  tick : ℤ
  data : Option β

abbrev Outcome (β : Type*) := Except String (Option (Entry β))

/-- How long an entry is good. -/
def ttl : ℤ := 3000

/-- `refresh`, with the row that the query gave and the time at its end. -/
def refresh (parse : α → Except String β) (row : Option (MathRow α)) (now : ℤ) (cached : Option (Entry β)) :
    Outcome β :=
  -- `math_tick>=0`
  match row.filter (0 ≤ ·.tick) with
  | none => .ok none
  | some row => match cached.filter (·.tick = row.tick) with
      | some entry => .ok (some { entry with validUntil := now + ttl })
      | none => match row.data with
          | none => .error "unsupported math shape"
          | some none => .ok (some ⟨now + ttl, row.tick, none⟩)
          | some (some t) => (parse t).map fun v => some ⟨now + ttl, row.tick, some v⟩

/-! ## Calls -/

/-- How a call came to its answer; a leader's read ended at a time. -/
inductive Role
  | cached
  | led (flight : ℕ) (ended : ℤ)
  | joined (flight : ℕ)

/-- Where a call of `load` stands. -/
inductive Call (α β : Type*)
  | idle
  /-- In `read`; the query may have given a row. -/
  | leading (key : Key) (flight : ℕ) (cached : Option (Entry β)) (row : Option (Option (MathRow α)))
  /-- The read has ended, and the lease is not complete. -/
  | ended (key : Key) (flight : ℕ) (time : ℤ) (outcome : Outcome β)
  /-- The read has panicked, and the lease is not dropped. -/
  | unwinding (key : Key) (flight : ℕ)
  | joining (key : Key) (flight : ℕ) (deadline : ℕ)
  | waiting (key : Key) (flight : ℕ) (waitUntil : ℕ)
  /-- The call has returned, at a time, with the data of an entry, with nothing or with an error. -/
  | done (key : Key) (role : Role) (time : ℤ) (answer : Outcome β)
  | panicked (key : Key) (flight : ℕ)

/-- A flight, with the key under which it was made. -/
structure Flight (β : Type*) where
  key : Key
  outcome : Option (Outcome β)

structure State (α β : Type*) where
  cache : Lru Key (Option (Entry β))
  flights : List (Key × ℕ)
  /-- The flights that were made, by their number. -/
  flight : ℕ → Flight β
  fresh : ℕ
  calls : ℕ → Call α β
  /-- `math_main` -/
  rows : Key → Option (MathRow α)
  /-- The rows that `math_main` has had. -/
  committed : List (Key × MathRow α)
  /-- `now_ms` -/
  clock : ℤ
  /-- `Instant::now` -/
  instant : ℕ

def State.init (cap : ℕ) : State α β :=
  ⟨⟨cap, []⟩, [], fun _ => ⟨("", 0), none⟩, 0, fun _ => .idle, fun _ => none, [], 0, 0⟩

namespace State

variable (s : State α β)

def setCall (c : ℕ) (call : Call α β) : State α β := { s with calls := update s.calls c call }

/-- The flight of a key. -/
def flightOf (key : Key) : Option ℕ := (s.flights.find? (·.1 = key)).map Prod.snd

/-- A flight is made for a key. -/
def «open» (key : Key) : State α β :=
  { s with flights := (key, s.fresh) :: s.flights, fresh := s.fresh + 1
           flight := update s.flight s.fresh ⟨key, none⟩ }

/-- The state after `cache.get`. -/
def looked (key : Key) : State α β := { s with cache := (s.cache.get key).2 }

/-- The first part of `load`, under the lock of the state. -/
def load (c : ℕ) (key : Key) (deadline : ℕ) : State α β :=
  let cached := (s.cache.get key).1.join
  match cached.filter (s.clock < ·.validUntil) with
  | some entry => (s.looked key).setCall c (.done key .cached s.clock (.ok (some entry)))
  | none => match s.flightOf key with
      | some f => (s.looked key).setCall c (.joining key f deadline)
      | none => ((s.looked key).open key).setCall c (.leading key s.fresh cached none)

/-- `Leader::complete` -/
def complete (key : Key) (f : ℕ) (outcome : Outcome β) : State α β :=
  { s with cache := match outcome with
             | .ok entry => s.cache.set key entry
             | .error _ => s.cache
           flight := update s.flight f { s.flight f with outcome := some outcome }
           flights := s.flights.filter (·.1 ≠ key) }

end State

/-- What a waiter answers when it wakes. -/
def joinedAnswer (waitUntil instant : ℕ) (clock : ℤ) (outcome : Option (Outcome β)) : Outcome β :=
  if waitUntil ≤ instant then .error "priority flight deadline"
  else match outcome with
    | some (.ok (some entry)) =>
      if clock < entry.validUntil then .ok (some entry) else .error "priority flight unavailable"
    | some (.ok none) => .ok none
    | some (.error e) => .error e
    | none => .error "priority flight unavailable"

/-! ## Steps -/

inductive Event (α : Type*)
  /-- A call begins. -/
  | load (c : ℕ) (key : Key) (deadline : ℕ)
  /-- The query of a read gives a row, or fails. -/
  | query (c : ℕ)
  | fail (c : ℕ) (message : String)
  /-- The read makes an entry of the row. -/
  | finish (c : ℕ)
  | panic (c : ℕ)
  /-- The lease is completed, or dropped. -/
  | complete (c : ℕ)
  | wait (c : ℕ)
  /-- A waiter wakes, by the flight or by its time. -/
  | wake (c : ℕ)
  /-- A row is written or removed. -/
  | publish (key : Key) (row : Option (MathRow α))
  /-- Time passes. -/
  | tick (clock : ℤ) (duration : ℕ)

/-- A step, when it can be made; `patience` is `acquire_timeout` and `statement_timeout`. -/
def step (parse : α → Except String β) (patience : ℕ) (s : State α β) : Event α → Option (State α β)
  | .load c key deadline => match s.calls c with
      | .idle => some (s.load c key deadline)
      | _ => none
  | .query c => match s.calls c with
      | .leading key f cached none => some (s.setCall c (.leading key f cached (some (s.rows key))))
      | _ => none
  | .fail c message => match s.calls c with
      | .leading key f _ none => some (s.setCall c (.ended key f s.clock (.error message)))
      | _ => none
  | .finish c => match s.calls c with
      | .leading key f cached (some row) =>
        some (s.setCall c (.ended key f s.clock (refresh parse row s.clock cached)))
      | _ => none
  | .panic c => match s.calls c with
      | .leading key f _ _ => some (s.setCall c (.unwinding key f))
      | _ => none
  | .complete c => match s.calls c with
      | .ended key f ended outcome =>
        some ((s.complete key f outcome).setCall c (.done key (.led f ended) s.clock outcome))
      | .unwinding key f =>
        some ((s.complete key f (.error "priority read interrupted")).setCall c (.panicked key f))
      | _ => none
  | .wait c => match s.calls c with
      | .joining key f deadline => some (s.setCall c (.waiting key f (min deadline (s.instant + patience))))
      | _ => none
  | .wake c => match s.calls c with
      | .waiting key f waitUntil =>
        if (s.flight f).outcome.isSome ∨ waitUntil ≤ s.instant then
          some (s.setCall c (.done key (.joined f) s.clock
            (joinedAnswer waitUntil s.instant s.clock (s.flight f).outcome)))
        else none
      | _ => none
  | .publish key row =>
    some { s with rows := update s.rows key row
                  committed := row.toList.map (key, ·) ++ s.committed }
  | .tick clock duration => some { s with clock := clock, instant := s.instant + duration }

inductive Reachable (parse : α → Except String β) (patience cap : ℕ) : State α β → Prop
  | init : Reachable parse patience cap (.init cap)
  | step {s s' : State α β} {e : Event α} : Reachable parse patience cap s → step parse patience s e = some s' →
      Reachable parse patience cap s'

end Polis.Priorities
