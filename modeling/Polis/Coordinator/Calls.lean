import Polis.Coordinator.Publish

/-!
# The calls of the control process

The lease statements of the Rust coordinator and the remaining functions of the migration. A process
that has lost its writer authority finds its lease unavailable instead of failing.

Reference: `coordinator-rs/src/store.rs` (`acquire`, `release`), `coordinator-rs/src/lease.rs` (`renew`,
`classify`), `coordinator-rs/src/bridge.rs` (the lease update of `dispatch`),
`server/postgres/migrations/000021_create_polis_coordinator.sql` (`pc_transition`, `pc_admit`,
`pc_reconcile`, `pc_protect`, `pc_reference`, `pc_cleanup`).
-/

namespace Polis.Coordinator

open Json
open Queue (Time Clock isSha256)

/-! ## Leases -/

inductive LeaseState
  | unavailable
  | expired
  | fenced
deriving DecidableEq, Repr

def LeaseRow.ownedBy (l : LeaseRow) (owner : String) (epoch : ℤ) : Prop :=
  l.ownerId = owner ∧ l.ownerEpoch = epoch

instance (l : LeaseRow) (owner : String) (epoch : ℤ) : Decidable (l.ownedBy owner epoch) :=
  inferInstanceAs (Decidable (_ ∧ _))

/-- `classify`; no state means that the lease is still the owner's. -/
def classify (lease : Option LeaseRow) (owner : String) (epoch : ℤ) (now : Time) : Option LeaseState :=
  match lease with
  | none => some .fenced
  | some l =>
    if ¬l.ownedBy owner epoch then some .fenced
    else if now < l.expiresAt then none
    else some .expired

/-- `UPDATE polis_coordinator_leases` -/
def Database.updateLease (db : Database) (k : ConvKey) (f : LeaseRow → LeaseRow) :
    Except DbError Database :=
  write (db.leases.update k f) fun leases => { db with leases }

/-- `make_interval(secs=>seconds)` -/
def seconds (n : ℤ) : ℤ := 1000000 * n

/-- `PgStore::acquire` -/
def acquire (db : Database) (s : Session) (clock : Clock) (k : ConvKey) (owner : String)
    (leaseSeconds : ℤ) : Except DbError (Option ℤ × Database) := do
  let allowed ← writerAllowed db s k
  if !allowed then .ok (none, db)
  else
    let expires := clock.read 0 + seconds leaseSeconds
    match db.leases.find k with
    | none => do
      let db ← write (db.leases.insert ⟨k.1, k.2, owner, 1, expires, none⟩) fun leases =>
        { db with leases }
      .ok (some 1, db)
    | some l =>
      if ¬(l.expiresAt ≤ clock.read 1 ∨ l.ownerId = owner) then .ok (none, db)
      else if 2 ^ 63 - 1 ≤ l.ownerEpoch then .error .outOfRange
      else do
        let db ← db.updateLease k fun l =>
          { l with ownerId := owner, ownerEpoch := l.ownerEpoch + 1, expiresAt := expires,
                   dispatch := none }
        .ok (some (l.ownerEpoch + 1), db)

/-- What `renew` answers. -/
inductive Renewed
  | renewed
  | lost (state : LeaseState)
  | uncertain
deriving DecidableEq, Repr

/-- `renew`, which never extends a lease that is not the owner's and unexpired. -/
def renew (db : Database) (s : Session) (clock : Clock) (k : ConvKey) (owner : String) (epoch : ℤ)
    (leaseSeconds : ℤ) : Except DbError (Renewed × Database) := do
  let allowed ← writerAllowed db s k
  if !allowed then .ok (.lost .unavailable, db)
  else if (db.leases.find k).any fun l => l.ownedBy owner epoch ∧ clock.read 0 < l.expiresAt then do
    let db ← db.updateLease k fun l => { l with expiresAt := clock.read 1 + seconds leaseSeconds }
    .ok (.renewed, db)
  else .ok (((classify (db.leases.find k) owner epoch (clock.read 1)).map .lost).getD .uncertain, db)

/-- `PgStore::release` -/
def release (db : Database) (s : Session) (clock : Clock) (k : ConvKey) (owner : String) (epoch : ℤ) :
    Except DbError Database := do
  let allowed ← writerAllowed db s k
  if !allowed then .ok db
  else if (db.leases.find k).any fun l => l.ownedBy owner epoch then
    db.updateLease k fun l => { l with expiresAt := clock.read 0 }
  else .ok db

/-- The lease update of `dispatch`, and why it refuses the dispatch. -/
def dispatchLease (db : Database) (s : Session) (clock : Clock) (k : ConvKey) (owner : String)
    (epoch : ℤ) (columns : DispatchColumns) : Except DbError (Option LeaseState × Database) := do
  let allowed ← writerAllowed db s k
  if !allowed then .ok (some .unavailable, db)
  else if (db.leases.find k).any fun l => l.ownedBy owner epoch ∧ clock.read 0 < l.expiresAt then do
    let db ← db.updateLease k fun l => { l with dispatch := some columns }
    .ok (none, db)
  else .ok (some ((classify (db.leases.find k) owner epoch (clock.read 1)).getD .fenced), db)

/-! ## Admission -/

/-- The arguments of `pc_admit`. -/
structure AdmitArgs where
  env : String
  zid : ℤ
  owner : String
  epoch : ℤ
  operation : String
  sourceSha256 : String
  reservedBytes : ℤ
deriving DecidableEq, Repr

def AdmitArgs.conv (a : AdmitArgs) : ConvKey := (a.env, a.zid)

def AdmitArgs.op (a : AdmitArgs) : OpKey := (a.env, a.zid, a.operation)

/-- The row of the operation was admitted for the request and the dispatch. -/
def OperationRow.admittedFor (o : OperationRow) (a : AdmitArgs) (d : DispatchColumns) : Prop :=
  o.ownerId = a.owner ∧ o.ownerEpoch = a.epoch ∧ o.expectedTick = d.expectedTick ∧
    o.capabilitySha256 = d.capabilitySha256 ∧ o.checkpointSha256 = d.checkpointSha256 ∧
    o.sourceSha256 = a.sourceSha256 ∧ o.reservedBytes = a.reservedBytes

instance (o : OperationRow) (a : AdmitArgs) (d : DispatchColumns) : Decidable (o.admittedFor a d) :=
  inferInstanceAs (Decidable (_ ∧ _))

/-- The row that an admission inserts. -/
def AdmitArgs.row (a : AdmitArgs) (d : DispatchColumns) (xid : ℕ) : OperationRow where
  mathEnv := a.env
  zid := a.zid
  operationId := a.operation
  ownerId := a.owner
  ownerEpoch := a.epoch
  expectedTick := d.expectedTick
  capabilitySha256 := d.capabilitySha256
  checkpointSha256 := d.checkpointSha256
  sourceSha256 := a.sourceSha256
  reservedBytes := a.reservedBytes
  xmin := xid

/-- The operations of a namespace. -/
def Database.operationsOf (db : Database) (env : String) : List OperationRow :=
  db.operations.rows.filter fun o => o.mathEnv = env

/-- `sum(reserved_bytes)` -/
def Database.usedBytes (db : Database) (env : String) : ℤ :=
  ((db.operationsOf env).map (·.reservedBytes)).sum

inductive Admitted
  | admitted
  | alreadyAdmitted
deriving DecidableEq, Repr

/-- The lease of an admission and its dispatch. -/
def admissionLease (db : Database) (a : AdmitArgs) : Except DbError (LeaseRow × DispatchColumns) :=
  match db.leases.find a.conv with
  | none => .error (.raised "P2020" "ADMISSION_IDENTITY_CONFLICT")
  | some lease =>
    match lease.dispatch with
    | none => .error (.raised "P2020" "ADMISSION_IDENTITY_CONFLICT")
    | some d => do
      require (lease.ownedBy a.owner a.epoch ∧ d.operationId = a.operation) "P2020"
        "ADMISSION_IDENTITY_CONFLICT"
      .ok (lease, d)

/-- The charge of a new operation to its namespace. -/
def admitNew (db : Database) (clock : Clock) (a : AdmitArgs) (lease : LeaseRow) (d : DispatchColumns)
    (budget : BudgetRow) : Except DbError Database := do
  require (clock.read 0 < lease.expiresAt) "P2005" "LEASE-EXPIRED"
  require (d.expectedTick = db.currentTick a.conv) "P2020" "ADMISSION_TICK_CONFLICT"
  require ((db.operationsOf a.env).length < budget.maxOperations ∧
    db.usedBytes a.env + a.reservedBytes ≤ budget.maxBytes) "P2021" "ADMISSION_CAPACITY"
  write (db.operations.insert (a.row d db.xid)) fun operations => { db with operations }

/-- `pc_admit` -/
def pcAdmit (db : Database) (s : Session) (clock : Clock) (a : AdmitArgs) :
    Except DbError (Admitted × Database) := do
  assertNamespace db s a.env
  assertWriter db s a.conv
  require (isSha256 a.sourceSha256 ∧ 1048576 ≤ a.reservedBytes ∧ a.reservedBytes ≤ 1099511627776)
    "P2020" "INVALID_ADMISSION"
  let (lease, d) ← admissionLease db a
  match db.budgets.find a.env with
  | none => .error (.raised "P2021" "ADMISSION_PROFILE_REQUIRED")
  | some budget =>
    match db.operations.find a.op with
    | some o => do
      require (o.admittedFor a d) "P2020" "ADMISSION_IDENTITY_CONFLICT"
      .ok (.alreadyAdmitted, db)
    | none => do
      let db ← admitNew db clock a lease d budget
      .ok (.admitted, db)

/-! ## Reconciliation and retention -/

variable (b : Builtins)

/-- The receipt is exactly the operation's, and complete. -/
def OperationRow.hasReceipt (o : OperationRow) (db : Database) (g : GenerationRow) : Prop :=
  g.ownerId = o.ownerId ∧ g.publisherEpoch = o.ownerEpoch ∧
    g.capabilitySha256 = o.capabilitySha256 ∧ g.expectedTick = o.expectedTick ∧
    checkpointDigest b g.inputCheckpoint.base = o.checkpointSha256 ∧
    (db.payloadsOf (o.mathEnv, o.zid) g.mathTick).length = 3

instance (o : OperationRow) (db : Database) (g : GenerationRow) : Decidable (o.hasReceipt b db g) :=
  inferInstanceAs (Decidable (_ ∧ _))

/-- `UPDATE polis_coordinator_operations`, which writes a new version of the row. -/
def Database.updateOperation (db : Database) (k : OpKey) (f : OperationRow → OperationRow) :
    Except DbError Database :=
  write (db.operations.update k fun o => { f o with xmin := db.xid }) fun operations =>
    { db with operations }

/-- `pc_reconcile`; the reply tells whether the operation is resolved. -/
def pcReconcile (db : Database) (s : Session) (clock : Clock) (k : OpKey) :
    Except DbError (Bool × Database) := do
  assertNamespace db s k.1
  match db.operations.find k with
  | none => .error (.raised "P2020" "OPERATION_NOT_ADMITTED")
  | some o =>
    match db.receipt k with
    | some g => do
      require (o.hasReceipt b db g) "P2020" "RECEIPT_IDENTITY_CONFLICT"
      let db ← db.updateOperation k fun o =>
        { o with state := .resolved, resolvedTick := some g.mathTick,
                 reconciledAt := some (clock.read 0) }
      .ok (true, db)
    | none => do
      -- A missing receipt does not prove that the dispatch did not commit.
      let db ← db.updateOperation k fun o =>
        { o with state := .unresolved, resolvedTick := none, reconciledAt := some (clock.read 0) }
      .ok (false, db)

/-- `pc_protect` -/
def pcProtect (db : Database) (s : Session) (k : OpKey) (isProtected : Bool) :
    Except DbError Database := do
  assertNamespace db s k.1
  require (db.operations.find k).isSome "P2020" "OPERATION_NOT_ADMITTED"
  db.updateOperation k fun o => { o with isProtected }

/-- The references to an operation. -/
def Database.referencesTo (db : Database) (k : OpKey) : List ReferenceRow :=
  db.references.rows.filter fun r => (r.mathEnv, r.zid, r.operationId) = k

/-- `pc_reference` -/
def pcReference (db : Database) (s : Session) (k : OpKey) (name : String) (present : Bool) :
    Except DbError Database := do
  assertNamespace db s k.1
  require (hasLength name 1 128) "P2020" "INVALID_REFERENCE"
  require (db.operations.find k).isSome "P2020" "OPERATION_NOT_ADMITTED"
  if !present then .ok { db with references := db.references.delete (k, name) }
  else if (db.references.find (k, name)).isSome then .ok db
  else do
    require ((db.referencesTo k).length < 128) "P2021" "REFERENCE_CAPACITY"
    write (db.references.insert ⟨k.1, k.2.1, k.2.2, name⟩) fun references => { db with references }

/-- The generation is current, at or above the floor, or expected. -/
def Database.inUse (db : Database) (clock : Clock) (k : ConvKey) (tick : ℤ) : Prop :=
  (∃ f ∈ db.floors.find k, f.mathTick ≤ tick) ∨ (∃ r ∈ db.ticks.find k, r.mathTick = tick) ∨
    (∃ r ∈ db.main.find k, r.mathTick = tick) ∨ (∃ r ∈ db.bidtopid.find k, r.mathTick = tick) ∨
    (∃ r ∈ db.ptptstats.find k, r.mathTick = tick) ∨
    (∃ o ∈ db.operations.rows, (o.mathEnv, o.zid) = k ∧ (o.state ≠ .resolved ∨ o.isProtected) ∧
      (o.expectedTick = some tick ∨ o.resolvedTick = some tick)) ∨
    ∃ l ∈ db.leases.find k, (∃ d ∈ l.dispatch, d.expectedTick = some tick) ∧ clock.read 0 < l.expiresAt

instance (db : Database) (clock : Clock) (k : ConvKey) (tick : ℤ) :
    Decidable (db.inUse clock k tick) := inferInstanceAs (Decidable (_ ∨ _))

/-- The floor has passed the generation. -/
def Database.passed (db : Database) (k : ConvKey) (g : GenerationRow) : Prop :=
  ∃ f ∈ db.floors.find k, g.mathTick < f.mathTick ∧ g.cachingTick < f.cachingTick

instance (db : Database) (k : ConvKey) (g : GenerationRow) : Decidable (db.passed k g) :=
  inferInstanceAs (Decidable (∃ f ∈ db.floors.find k, _))

/-- The conversation of an operation. -/
def OpKey.conv (k : OpKey) : ConvKey := (k.1, k.2.1)

/-- The receipt that a cleanup removes. -/
def removable (db : Database) (clock : Clock) (k : OpKey) : Option GenerationRow :=
  match db.operations.find k, db.receipt k with
  | some o, some g =>
    if o.state = .resolved ∧ o.isProtected = false ∧ db.referencesTo k = [] ∧
        o.resolvedTick = some g.mathTick ∧ ¬db.inUse clock (OpKey.conv k) g.mathTick ∧
        db.passed (OpKey.conv k) g then some g
    else none
  | _, _ => none

/-- `pc_cleanup` -/
def pcCleanup (db : Database) (s : Session) (clock : Clock) (k : OpKey) :
    Except DbError (Bool × Database) := do
  assertNamespace db s k.1
  match removable db clock k with
  | none => .ok (false, db)
  | some g =>
    .ok (true, { db with
      payloads := db.payloads.deleteWhere fun p =>
        (p.mathEnv, p.zid) = OpKey.conv k ∧ p.mathTick = g.mathTick
      generations := db.generations.deleteWhere fun g => (g.mathEnv, g.zid, g.operationId) = k
      operations := db.operations.delete k })

/-! ## Transitions -/

/-- The arguments of `pc_transition`. -/
structure TransitionArgs where
  source : String
  env : String
  zid : ℤ
  transition : String
  lastServed : Option ℤ
  exclusionSha256 : String
deriving DecidableEq, Repr

def TransitionArgs.valid (a : TransitionArgs) : Prop :=
  a.source ≠ a.env ∧ hasLength a.source 1 999 ∧ hasLength a.transition 1 128 ∧
    tickIn a.lastServed 0 (maxTick - 1) ∧ isSha256 a.exclusionSha256

instance (a : TransitionArgs) : Decidable a.valid := inferInstanceAs (Decidable (_ ∧ _))

def TransitionArgs.from (a : TransitionArgs) : ConvKey := (a.source, a.zid)

def TransitionArgs.to (a : TransitionArgs) : ConvKey := (a.env, a.zid)

/-- The ticks that the math tables, the receipts and the floor record for a conversation. -/
def Database.recordedTicks (db : Database) (k : ConvKey) : List ℤ :=
  (db.ticks.find k).toList.map (·.mathTick) ++ (db.main.find k).toList.map (·.mathTick) ++
    (db.bidtopid.find k).toList.map (·.mathTick) ++ (db.ptptstats.find k).toList.map (·.mathTick) ++
    (db.lastReceipt k).toList ++ (db.floors.find k).toList.map (·.mathTick)

/-- The tick that a transition ends at. -/
def baseTick (db : Database) (a : TransitionArgs) : ℤ :=
  (greatest (greatest (greatest (maxOf (db.recordedTicks a.from)) (maxOf (db.recordedTicks a.to)))
    a.lastServed) (some 0)).getD 0

/-- The rows of a legacy conversation have one tick. -/
def Database.coherent (db : Database) (k : ConvKey) : Prop :=
  ∃ t ∈ db.ticks.find k, (∃ m ∈ db.main.find k, m.mathTick = t.mathTick) ∧
    (∃ r ∈ db.bidtopid.find k, r.mathTick = t.mathTick) ∧
    ∃ r ∈ db.ptptstats.find k, r.mathTick = t.mathTick

instance (db : Database) (k : ConvKey) : Decidable (db.coherent k) :=
  inferInstanceAs (Decidable (∃ t ∈ db.ticks.find k, _))

/-- The receipt of a transition is the request's. -/
def TransitionRow.isFor (t : TransitionRow) (a : TransitionArgs) (p : PrincipalRow) : Prop :=
  t.sourceEnv = a.source ∧ t.zid = a.zid ∧ t.lastServedTick = a.lastServed ∧
    t.exclusionSha256 = a.exclusionSha256 ∧ t.principalOid = p.principalOid ∧
    t.principalName = p.principalName

instance (t : TransitionRow) (a : TransitionArgs) (p : PrincipalRow) : Decidable (t.isFor a p) :=
  inferInstanceAs (Decidable (_ ∧ _))

inductive TransitionOutcome
  | publicationRequired
  | legacyReticked
  | alreadyCommitted
deriving DecidableEq, Repr

/-- The reply of `pc_transition`. -/
structure Transitioned where
  outcome : TransitionOutcome
  floorTick : ℤ
  resultTick : Option ℤ
  cachingTick : ℤ
deriving DecidableEq, Repr

/-- `INSERT INTO polis_coordinator_writer_authority .. ON CONFLICT .. DO UPDATE` -/
def Database.setAuthority (db : Database) (k : ConvKey) (enabled : Bool) : Except DbError Database :=
  write (db.authority.upsert ⟨k.1, k.2, enabled⟩ fun r => { r with enabled }) fun authority =>
    { db with authority }

/-- A transition expires the lease and revokes its dispatch. -/
def Database.revokeLease (db : Database) (k : ConvKey) (now : Time) : Except DbError Database :=
  db.updateLease k fun l => { l with expiresAt := now, dispatch := none }

/-- The rows of a legacy destination move to the tick, with the data they have. -/
def retick (db : Database) (k : ConvKey) (tick cursor : ℤ) : Except DbError Database := do
  let db ← write (db.ticks.update k fun r => { r with mathTick := tick }) fun ticks =>
    { db with ticks }
  let db ← write (db.bidtopid.update k fun r => { r with mathTick := tick }) fun bidtopid =>
    { db with bidtopid }
  let db ← write (db.ptptstats.update k fun r => { r with mathTick := tick }) fun ptptstats =>
    { db with ptptstats }
  write (db.main.update k fun r => { r with mathTick := tick, cachingTick := cursor }) fun main =>
    { db with main }

/-- The tick that a transition gives a legacy destination. -/
def NamespaceRow.resultTick (profile : NamespaceRow) (base : ℤ) : Option ℤ :=
  match profile.writerKind with
  | .legacy => some (base + 1)
  | .python => none

/-- The floor that a transition sets. -/
def NamespaceRow.floorTick (profile : NamespaceRow) (base : ℤ) : ℤ :=
  (profile.resultTick base).getD base

/-- The receipt that a transition writes. -/
def TransitionArgs.row (a : TransitionArgs) (db : Database) (p : PrincipalRow) (profile : NamespaceRow)
    (cursor : ℤ) : TransitionRow where
  mathEnv := a.env
  transitionId := a.transition
  zid := a.zid
  sourceEnv := a.source
  principalOid := p.principalOid
  principalName := p.principalName
  lastServedTick := a.lastServed
  sourceTick := maxOf (db.recordedTicks a.from)
  destinationTick := maxOf (db.recordedTicks a.to)
  floorTick := baseTick db a
  resultTick := profile.resultTick (baseTick db a)
  cachingTick := cursor
  writerKind := profile.writerKind
  exclusionSha256 := a.exclusionSha256

/-- The source loses its authority, the destination has it, and neither has a dispatch. -/
def withdraw (db : Database) (clock : Clock) (a : TransitionArgs) : Except DbError (ℤ × Database) := do
  let db ← db.setAuthority a.from false
  let db ← db.setAuthority a.to true
  let (cursor, db) ← nextval db
  let db ← db.revokeLease a.from (clock.read 0)
  let db ← db.revokeLease a.to (clock.read 1)
  .ok (cursor, db)

/-- The rows of a legacy destination, if it is one. -/
def reticked (db : Database) (k : ConvKey) (tick : Option ℤ) (cursor : ℤ) : Except DbError Database :=
  match tick with
  | some tick => retick db k tick cursor
  | none => .ok db

/-- The floor of the destination. -/
def raiseFloor (db : Database) (k : ConvKey) (tick cursor : ℤ) : Except DbError Database :=
  write (db.floors.upsert ⟨k.1, k.2, tick, cursor⟩ fun f =>
    { f with mathTick := tick, cachingTick := cursor }) fun floors => { db with floors }

/-- The writes of a new transition. -/
def commitTransition (db : Database) (clock : Clock) (a : TransitionArgs) (p : PrincipalRow)
    (profile : NamespaceRow) : Except DbError (ℤ × Database) := do
  let base := baseTick db a
  let row := a.row db p profile
  let (cursor, db) ← withdraw db clock a
  let db ← reticked db a.to (profile.resultTick base) cursor
  let db ← raiseFloor db a.to (profile.floorTick base) cursor
  let db ← write (db.transitions.insert (row cursor)) fun transitions => { db with transitions }
  .ok (cursor, db)

/-- The reply of a new transition. -/
def NamespaceRow.transitioned (profile : NamespaceRow) (base cursor : ℤ) : Transitioned where
  outcome := match profile.writerKind with
    | .python => .publicationRequired
    | .legacy => .legacyReticked
  floorTick := base
  resultTick := profile.resultTick base
  cachingTick := cursor

/-- A transition that has no receipt yet. -/
def transitionNew (db : Database) (clock : Clock) (a : TransitionArgs) (p : PrincipalRow) :
    Except DbError (Transitioned × Database) :=
  match db.namespaces.find a.env with
  -- The namespace of a principal exists.
  | none => .error .foreignKey
  | some profile => do
    require (((db.transitions.rows.filter fun t => t.mathEnv = a.env).length : ℤ) <
      profile.maxTransitions) "P2032" "TRANSITION_CAPACITY"
    require (baseTick db a < maxTick) "P2031" "TRANSITION_TICK_EXHAUSTED"
    require (profile.writerKind = .legacy → db.coherent a.to) "P2031"
      "LEGACY_COHERENT_REBUILD_REQUIRED"
    let (cursor, db') ← commitTransition db clock a p profile
    .ok (profile.transitioned (baseTick db a) cursor, db')

/-- `pc_transition` -/
def pcTransition (db : Database) (s : Session) (clock : Clock) (a : TransitionArgs) :
    Except DbError (Transitioned × Database) := do
  assertNamespace db s a.env
  match db.principals.rows.find? fun p => p.principalName = s.user with
  -- The namespace was asserted for a principal of this name.
  | none => .error (.raised "P2030" "TRANSITION_AUTHORITY_REQUIRED")
  | some p => do
    require (p.canTransition = true) "P2030" "TRANSITION_AUTHORITY_REQUIRED"
    require a.valid "P2031" "INVALID_TRANSITION"
    require (db.namespaces.find a.source).isSome "P2031" "UNKNOWN_SOURCE_NAMESPACE"
    require (a.zid ∈ db.conversations) "P2031" "UNKNOWN_CONVERSATION"
    match db.transitions.find (a.env, a.transition) with
    | some t => do
      require (t.isFor a p) "P2031" "TRANSITION_IDENTITY_CONFLICT"
      .ok (⟨.alreadyCommitted, t.floorTick, t.resultTick, t.cachingTick⟩, db)
    | none => transitionNew db clock a p

end Polis.Coordinator
