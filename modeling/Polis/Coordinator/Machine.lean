import Polis.Coordinator.Calls
import Polis.Common.Run

/-!
# Runs of the coordinator

Every call is one serialized transaction. A call that fails writes nothing, but a value that it took from
the sequence stays taken. Between the calls, rows of `math_ticks` can be lost or fall back.
-/

namespace Polis.Coordinator

open Queue (Time Clock)

inductive Call
  | acquire (k : ConvKey) (owner : String) (leaseSeconds : ℤ)
  | renew (k : ConvKey) (owner : String) (epoch leaseSeconds : ℤ)
  | release (k : ConvKey) (owner : String) (epoch : ℤ)
  | dispatch (k : ConvKey) (owner : String) (epoch : ℤ) (columns : DispatchColumns)
  | admission (a : AdmitArgs)
  | publish (a : PublishArgs)
  | reconcile (k : OpKey)
  | protect (k : OpKey) (isProtected : Bool)
  | reference (k : OpKey) (name : String) (present : Bool)
  | cleanup (k : OpKey)
  | transition (a : TransitionArgs)

inductive Reply
  | acquired (epoch : Option ℤ)
  | renewed (r : Renewed)
  | dispatched (refused : Option LeaseState)
  | admitted (r : Admitted)
  | published (r : Published)
  | reconciled (resolved : Bool)
  | cleaned (removed : Bool)
  | transitioned (r : Transitioned)
  | done
deriving DecidableEq

/-- A reply and the database after it. -/
def replied {α : Type} (reply : α → Reply) (x : Except DbError (α × Database)) :
    Except DbError (Reply × Database) :=
  x.map fun r => (reply r.1, r.2)

theorem replied_eq_ok {α : Type} {reply : α → Reply} {x : Except DbError (α × Database)} {r : Reply}
    {db : Database} : replied reply x = .ok (r, db) ↔ ∃ a, x = .ok (a, db) ∧ reply a = r := by
  cases x with
  | error e => simp [replied, Except.map]
  | ok p =>
    obtain ⟨a, db'⟩ := p
    simp only [replied, Except.map, Except.ok.injEq, Prod.mk.injEq]
    constructor
    · rintro ⟨rfl, rfl⟩
      exact ⟨a, ⟨rfl, rfl⟩, rfl⟩
    · rintro ⟨a', ⟨rfl, rfl⟩, rfl⟩
      exact ⟨rfl, rfl⟩

/-- A call without a reply. -/
def unreplied (x : Except DbError Database) : Except DbError (Reply × Database) :=
  x.map fun db => (.done, db)

theorem unreplied_eq_ok {x : Except DbError Database} {r : Reply} {db : Database} :
    unreplied x = .ok (r, db) ↔ x = .ok db ∧ r = .done := by
  cases x with
  | error e => simp [unreplied, Except.map]
  | ok db' => simp [unreplied, Except.map, and_comm, eq_comm]

variable (b : Builtins)

def execute (db : Database) (s : Session) (clock : Clock) : Call → Except DbError (Reply × Database)
  | .acquire k owner n => replied .acquired (acquire db s clock k owner n)
  | .renew k owner epoch n => replied .renewed (renew db s clock k owner epoch n)
  | .release k owner epoch => unreplied (release db s clock k owner epoch)
  | .dispatch k owner epoch columns =>
    replied .dispatched (dispatchLease db s clock k owner epoch columns)
  | .admission a => replied .admitted (pcAdmit db s clock a)
  | .publish a => replied .published (pcPublish b db s clock a)
  | .reconcile k => replied .reconciled (pcReconcile b db s clock k)
  | .protect k isProtected => unreplied (pcProtect db s k isProtected)
  | .reference k name present => unreplied (pcReference db s k name present)
  | .cleanup k => replied .cleaned (pcCleanup db s clock k)
  | .transition a => replied .transitioned (pcTransition db s clock a)

/-- A call with what it answers, or damage to `math_ticks`. -/
inductive Event
  | call (s : Session) (clock : Clock) (c : Call) (outcome : Except DbError Reply)
  | damage

/-- Rows of `math_ticks` are deleted or lowered. -/
def Lowered (ticks ticks' : Table TicksRow) : Prop :=
  ∀ k r', ticks'.find k = some r' → ∃ r, ticks.find k = some r ∧ r'.mathTick ≤ r.mathTick

inductive Step : Database → Event → Database → Prop
  | done {db db' : Database} {s : Session} {clock : Clock} {c : Call} {r : Reply} :
      execute b db s clock c = .ok (r, db') →
      Step db (.call s clock c (.ok r)) { db' with xid := db.xid + 1 }
  | refused {db : Database} {s : Session} {clock : Clock} {c : Call} {e : DbError} {cursor : ℤ} :
      execute b db s clock c = .error e → db.cachingTick ≤ cursor → cursor ≤ db.cachingTick + 1 →
      Step db (.call s clock c (.error e)) { db with cachingTick := cursor, xid := db.xid + 1 }
  | damage {db : Database} {ticks : Table TicksRow} :
      Lowered db.ticks ticks → Step db .damage { db with ticks }

/-- The migration has made the coordinator's tables; the math tables are those it found. -/
structure Installed (db : Database) : Prop where
  authority : db.authority = .empty
  transitions : db.transitions = .empty
  leases : db.leases = .empty
  generations : db.generations = .empty
  payloads : db.payloads = .empty
  operations : db.operations = .empty
  references : db.references = .empty
  floors : db.floors = .empty

/-! ## Histories -/

/-- A call, and the event that it is with the database after it. -/
def Call.event (db : Database) (c : Session × Clock × Call) : Event × Database :=
  match execute b db c.1 c.2.1 c.2.2 with
  | .ok (r, db') => (.call c.1 c.2.1 c.2.2 (.ok r), { db' with xid := db.xid + 1 })
  | .error e => (.call c.1 c.2.1 c.2.2 (.error e), { db with xid := db.xid + 1 })

theorem Call.event_step (db : Database) (c : Session × Clock × Call) :
    Step b db (Call.event b db c).1 (Call.event b db c).2 := by
  unfold Call.event
  cases hexec : execute b db c.1 c.2.1 c.2.2 with
  | ok p => exact .done hexec
  | error e => exact .refused hexec le_rfl (lt_add_one _).le

/-- Calls taken one after the other. -/
def history (db : Database) (calls : List (Session × Clock × Call)) : List Event × Database :=
  replay (Call.event b) db calls

theorem history_run (db : Database) (calls : List (Session × Clock × Call)) :
    Run (Step b) db (history b db calls).1 (history b db calls).2 :=
  run_replay (Call.event_step b) db calls

/-- What a call answered. -/
def Event.outcome : Event → Option (Except DbError Reply)
  | .call _ _ _ r => some r
  | .damage => none

theorem Call.event_eq {db : Database} {c : Session × Clock × Call} {r : Except DbError Reply}
    (h : (Call.event b db c).1.outcome = some r) :
    (Call.event b db c).1 = .call c.1 c.2.1 c.2.2 r := by
  unfold Call.event at h ⊢
  split
  · next hexec =>
      rw [hexec] at h
      cases h
      rfl
  · next hexec =>
      rw [hexec] at h
      cases h
      rfl

end Polis.Coordinator
