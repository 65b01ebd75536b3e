import Polis.Coordinator.Canonical
import Polis.Queue.Schema

/-!
# The tables of the coordinator

The coordinator tables of 000021 and the math tables that it writes. A NULL argument is refused by every
call but for the optional ticks, so the other arguments are plain values. Columns that no call reads are
left out. A foreign key is checked where a call can break it.

Reference: `server/postgres/migrations/000021_create_polis_coordinator.sql`.
-/

namespace Polis.Coordinator

open Json
open Queue (Time Clock isSha256)

/-- The greatest exact integer of a consumer. -/
def maxTick : ℤ := 9007199254740991

abbrev Bytes := List UInt8

/-- A conversation in a namespace. -/
abbrev ConvKey := String × ℤ

/-- An operation of a conversation. -/
abbrev OpKey := String × ℤ × String

inductive WriterKind
  | python
  | legacy
deriving DecidableEq, Repr

inductive OperationState
  | pending
  | unresolved
  | resolved
deriving DecidableEq, Repr

inductive PayloadKind
  | main
  | bidtopid
  | ptptstats
deriving DecidableEq, Repr

/-- `length(..) BETWEEN lo AND hi` -/
def hasLength (s : String) (lo hi : ℕ) : Prop := lo ≤ s.length ∧ s.length ≤ hi

instance (s : String) (lo hi : ℕ) : Decidable (hasLength s lo hi) :=
  inferInstanceAs (Decidable (_ ∧ _))

/-- `BETWEEN lo AND hi`, or NULL -/
def tickIn (t : Option ℤ) (lo hi : ℤ) : Prop := ∀ n ∈ t, lo ≤ n ∧ n ≤ hi

instance (t : Option ℤ) (lo hi : ℤ) : Decidable (tickIn t lo hi) :=
  match t with
  | none => isTrue fun _ h => nomatch h
  | some n => decidable_of_iff (lo ≤ n ∧ n ≤ hi) (by simp [tickIn])

/-! ## Rows -/

/-- `polis_coordinator_namespaces` -/
structure NamespaceRow where
  mathEnv : String
  writerKind : WriterKind
  maxTransitions : ℤ
deriving DecidableEq, Repr

/-- `polis_coordinator_writer_authority` -/
structure AuthorityRow where
  mathEnv : String
  zid : ℤ
  enabled : Bool
deriving DecidableEq, Repr

/-- `polis_coordinator_principals` -/
structure PrincipalRow where
  principalOid : ℕ
  principalName : String
  mathEnv : String
  canTransition : Bool := false
deriving DecidableEq, Repr

/-- `pg_roles` -/
structure RoleRow where
  oid : ℕ
  rolname : String
  rolcanlogin : Bool
deriving DecidableEq, Repr

/-- `polis_coordinator_transitions` -/
structure TransitionRow where
  mathEnv : String
  transitionId : String
  zid : ℤ
  sourceEnv : String
  principalOid : ℕ
  principalName : String
  lastServedTick : Option ℤ
  sourceTick : Option ℤ
  destinationTick : Option ℤ
  floorTick : ℤ
  resultTick : Option ℤ
  cachingTick : ℤ
  writerKind : WriterKind
  exclusionSha256 : String
deriving DecidableEq, Repr

/-- The `dispatch_` columns of a lease, which are NULL together. -/
structure DispatchColumns where
  operationId : String
  capabilitySha256 : String
  checkpointSha256 : String
  expectedTick : Option ℤ
  marginMs : ℤ
deriving DecidableEq, Repr

/-- `polis_coordinator_leases` -/
structure LeaseRow where
  mathEnv : String
  zid : ℤ
  ownerId : String
  ownerEpoch : ℤ
  expiresAt : Time
  dispatch : Option DispatchColumns := none
deriving DecidableEq, Repr

/-- One digest for each payload. -/
structure Digests where
  main : String
  bidtopid : String
  ptptstats : String
deriving DecidableEq, Repr

/-- `digests->>kind` -/
def Digests.get (d : Digests) : PayloadKind → String
  | .main => d.main
  | .bidtopid => d.bidtopid
  | .ptptstats => d.ptptstats

/-- A checkpoint with the four members that a receipt adds to it. -/
structure InputCheckpoint where
  base : Json Decimal
  operationId : String
  publisherEpoch : ℤ
  originalDigests : Digests
  payloadDigests : Digests

/-- `polis_coordinator_generations` -/
structure GenerationRow where
  mathEnv : String
  zid : ℤ
  mathTick : ℤ
  cachingTick : ℤ
  ownerId : String
  publisherEpoch : ℤ
  operationId : String
  capabilitySha256 : String
  expectedTick : Option ℤ
  inputCheckpoint : InputCheckpoint

/-- `polis_coordinator_payloads` -/
structure PayloadRow where
  mathEnv : String
  zid : ℤ
  mathTick : ℤ
  payloadKind : PayloadKind
  originalBytes : Bytes
  originalSha256 : String
  storageSha256 : String
deriving DecidableEq, Repr

/-- `polis_coordinator_budgets` -/
structure BudgetRow where
  mathEnv : String
  maxOperations : ℤ
  maxBytes : ℤ
deriving DecidableEq, Repr

/-- `polis_coordinator_operations`; a row that was never reconciled was so at `-infinity`. -/
structure OperationRow where
  mathEnv : String
  zid : ℤ
  operationId : String
  ownerId : String
  ownerEpoch : ℤ
  expectedTick : Option ℤ
  capabilitySha256 : String
  checkpointSha256 : String
  sourceSha256 : String
  reservedBytes : ℤ
  state : OperationState := .pending
  isProtected : Bool := false
  reconciledAt : Option Time := none
  resolvedTick : Option ℤ := none
  /-- The transaction that wrote this version of the row. -/
  xmin : ℕ
deriving DecidableEq, Repr

/-- `polis_coordinator_references` -/
structure ReferenceRow where
  mathEnv : String
  zid : ℤ
  operationId : String
  referenceName : String
deriving DecidableEq, Repr

/-- `polis_coordinator_floors` -/
structure FloorRow where
  mathEnv : String
  zid : ℤ
  mathTick : ℤ
  cachingTick : ℤ
deriving DecidableEq, Repr

/-- `math_ticks` -/
structure TicksRow where
  mathEnv : String
  zid : ℤ
  mathTick : ℤ
deriving DecidableEq, Repr

/-- `math_bidtopid` and `math_ptptstats` -/
structure DataRow where
  mathEnv : String
  zid : ℤ
  mathTick : ℤ
  data : Json Decimal

/-- `math_main` -/
structure MainRow where
  mathEnv : String
  zid : ℤ
  mathTick : ℤ
  data : Json Decimal
  lastVoteTimestamp : ℤ
  cachingTick : ℤ

/-! ## Constraints -/

instance : Row NamespaceRow String Unit where
  key n := n.mathEnv
  unique _ := none
  check n := 0 < n.mathEnv.length ∧ 1 ≤ n.maxTransitions ∧ n.maxTransitions ≤ 10000
  decidableCheck _ := inferInstance

instance : Row AuthorityRow ConvKey Unit where
  key a := (a.mathEnv, a.zid)
  unique _ := none
  check _ := True
  decidableCheck _ := inferInstance

instance : Row PrincipalRow ℕ String where
  key p := p.principalOid
  unique p := some p.principalName
  check _ := True
  decidableCheck _ := inferInstance

/-- The result of a transition is the tick above its floor, and a legacy destination has one. -/
def TransitionRow.ranged (t : TransitionRow) : Prop :=
  tickIn t.lastServedTick 0 (maxTick - 1) ∧ tickIn t.sourceTick 0 maxTick ∧
    tickIn t.destinationTick 0 maxTick ∧ 0 ≤ t.floorTick ∧ t.floorTick ≤ maxTick - 1 ∧
    (∀ n ∈ t.resultTick, n = t.floorTick + 1) ∧ 1 ≤ t.cachingTick ∧ t.cachingTick ≤ maxTick ∧
    (t.writerKind = .legacy ↔ t.resultTick.isSome)

instance (t : TransitionRow) : Decidable t.ranged := inferInstanceAs (Decidable (_ ∧ _))

instance : Row TransitionRow (String × String) Unit where
  key t := (t.mathEnv, t.transitionId)
  unique _ := none
  check t := hasLength t.transitionId 1 128 ∧ 0 < t.sourceEnv.length ∧ t.sourceEnv ≠ t.mathEnv ∧
    t.ranged ∧ isSha256 t.exclusionSha256
  decidableCheck _ := inferInstance

def DispatchColumns.valid (d : DispatchColumns) : Prop :=
  hasLength d.operationId 1 128 ∧ isSha256 d.capabilitySha256 ∧ isSha256 d.checkpointSha256 ∧
    tickIn d.expectedTick 0 (maxTick - 1) ∧ 1 ≤ d.marginMs ∧ d.marginMs ≤ 60000

instance (d : DispatchColumns) : Decidable d.valid := inferInstanceAs (Decidable (_ ∧ _))

instance : Row LeaseRow ConvKey Unit where
  key l := (l.mathEnv, l.zid)
  unique _ := none
  check l := 0 < l.mathEnv.length ∧ hasLength l.ownerId 1 128 ∧ 0 < l.ownerEpoch ∧
    ∀ d ∈ l.dispatch, d.valid
  decidableCheck _ := inferInstance

instance : Row GenerationRow (String × ℤ × ℤ) OpKey where
  key g := (g.mathEnv, g.zid, g.mathTick)
  unique g := some (g.mathEnv, g.zid, g.operationId)
  check g := 0 < g.mathEnv.length ∧ 0 ≤ g.mathTick ∧ g.mathTick ≤ maxTick ∧ 1 ≤ g.cachingTick ∧
    g.cachingTick ≤ maxTick ∧ hasLength g.ownerId 1 128 ∧ 0 < g.publisherEpoch ∧
    hasLength g.operationId 1 128 ∧ isSha256 g.capabilitySha256 ∧
    tickIn g.expectedTick 0 (maxTick - 1) ∧ g.mathTick = (g.expectedTick.map (· + 1)).getD 0
  decidableCheck _ := inferInstance

instance : Row PayloadRow (String × ℤ × ℤ × PayloadKind) Unit where
  key p := (p.mathEnv, p.zid, p.mathTick, p.payloadKind)
  unique _ := none
  check p := p.originalBytes ≠ [] ∧ isSha256 p.originalSha256 ∧ isSha256 p.storageSha256
  decidableCheck _ := inferInstance

instance : Row BudgetRow String Unit where
  key r := r.mathEnv
  unique _ := none
  check r := 0 < r.mathEnv.length ∧ 1 ≤ r.maxOperations ∧ r.maxOperations ≤ 1000000 ∧
    1048576 ≤ r.maxBytes ∧ r.maxBytes ≤ 1099511627776
  decidableCheck _ := inferInstance

instance : Row OperationRow OpKey Unit where
  key o := (o.mathEnv, o.zid, o.operationId)
  unique _ := none
  check o := hasLength o.operationId 1 128 ∧ hasLength o.ownerId 1 128 ∧ 0 < o.ownerEpoch ∧
    tickIn o.expectedTick 0 (maxTick - 1) ∧ isSha256 o.capabilitySha256 ∧
    isSha256 o.checkpointSha256 ∧ isSha256 o.sourceSha256 ∧ 1048576 ≤ o.reservedBytes ∧
    o.reservedBytes ≤ 1099511627776 ∧ tickIn o.resolvedTick 0 maxTick ∧
    (o.state = .resolved ↔ o.resolvedTick.isSome)
  decidableCheck _ := inferInstance

instance : Row ReferenceRow (OpKey × String) Unit where
  key r := ((r.mathEnv, r.zid, r.operationId), r.referenceName)
  unique _ := none
  check r := hasLength r.referenceName 1 128
  decidableCheck _ := inferInstance

instance : Row FloorRow ConvKey Unit where
  key f := (f.mathEnv, f.zid)
  unique _ := none
  check f := 0 ≤ f.mathTick ∧ f.mathTick ≤ maxTick ∧ 1 ≤ f.cachingTick ∧ f.cachingTick ≤ maxTick
  decidableCheck _ := inferInstance

instance : Row TicksRow ConvKey Unit where
  key t := (t.mathEnv, t.zid)
  unique _ := none
  check _ := True
  decidableCheck _ := inferInstance

instance : Row DataRow ConvKey Unit where
  key d := (d.mathEnv, d.zid)
  unique _ := none
  check _ := True
  decidableCheck _ := inferInstance

instance : Row MainRow ConvKey Unit where
  key m := (m.mathEnv, m.zid)
  unique _ := none
  check _ := True
  decidableCheck _ := inferInstance

/-! ## The database -/

/-- Why a call fails; a failed call is rolled back, but for the sequence. -/
inductive DbError
  | raised (code message : String)
  | constraint (violation : Violation)
  | foreignKey
  | outOfRange
deriving DecidableEq, Repr

/-- The tables, the roles, the conversations by id, the last value of
`polis_coordinator_caching_tick` and the next transaction. -/
structure Database where
  conversations : List ℤ
  roles : List RoleRow
  namespaces : Table NamespaceRow
  principals : Table PrincipalRow
  budgets : Table BudgetRow
  ticks : Table TicksRow := .empty
  main : Table MainRow := .empty
  bidtopid : Table DataRow := .empty
  ptptstats : Table DataRow := .empty
  authority : Table AuthorityRow := .empty
  transitions : Table TransitionRow := .empty
  leases : Table LeaseRow := .empty
  generations : Table GenerationRow := .empty
  payloads : Table PayloadRow := .empty
  operations : Table OperationRow := .empty
  references : Table ReferenceRow := .empty
  floors : Table FloorRow := .empty
  cachingTick : ℤ := 0
  xid : ℕ := 0

/-- A write to one table of the database. -/
def write {ρ κ υ : Type} [Row ρ κ υ] (x : Except Violation (Table ρ)) (set : Table ρ → Database) :
    Except DbError Database :=
  match x with
  | .ok t => .ok (set t)
  | .error violation => .error (.constraint violation)

theorem write_eq_ok {ρ κ υ : Type} [Row ρ κ υ] {x : Except Violation (Table ρ)}
    {set : Table ρ → Database} {db : Database} :
    write x set = .ok db ↔ ∃ t, x = .ok t ∧ db = set t := by
  cases x with
  | error violation => simp [write]
  | ok t => simp [write, eq_comm]

/-- What the database computes on bytes and texts. -/
structure Builtins where
  /-- `encode(sha256(..),'hex')` -/
  sha256 : Bytes → String
  sha256_hex : ∀ bytes, isSha256 (sha256 bytes) = true
  /-- `convert_from(..,'UTF8') IS JSON OBJECT WITH UNIQUE KEYS`, which other text is not either -/
  uniqueObject : Bytes → Bool
  /-- `convert_from(..,'UTF8')::jsonb`, if `jsonb` holds it -/
  jsonb : Bytes → Option (Json Decimal)
  /-- `jsonb::text` -/
  text : Json Decimal → String

/-- `session_user`, and whether the transaction is `READ COMMITTED`. -/
structure Session where
  user : String
  readCommitted : Bool := true
deriving DecidableEq, Repr

end Polis.Coordinator
