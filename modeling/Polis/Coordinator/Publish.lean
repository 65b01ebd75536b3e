import Polis.Coordinator.Schema

/-!
# Publication

`pc_publish` hashes the payloads before it takes its locks. An operation that has its receipt is only
answered; another one is written at the tick after the greatest of the pointer, the receipts and the
floor, if the dispatched lease and the admitted operation are exactly those of the request.

Reference: `server/postgres/migrations/000021_create_polis_coordinator.sql` (`pc_namespace_allowed`,
`pc_writer_allowed`, `pc_publish`).
-/

namespace Polis.Coordinator

open Json
open Queue (Time Clock isSha256)

/-- `IF NOT p THEN RAISE` -/
def require (p : Prop) [Decidable p] (code message : String) : Except DbError Unit :=
  if p then .ok () else .error (.raised code message)

theorem require_eq_ok {p : Prop} [Decidable p] {code message : String} {u : Unit} :
    require p code message = .ok u ↔ p := by
  unfold require
  split
  · next h => simp [h]
  · next h => simp [h]

theorem require_eq_error {p : Prop} [Decidable p] {code message : String} {e : DbError} :
    require p code message = .error e ↔ ¬p ∧ e = .raised code message := by
  unfold require
  split
  · next h => simp [h]
  · next h => simp [h, eq_comm]

/-! ## Authority -/

/-- `pc_namespace_allowed` -/
def namespaceAllowed (db : Database) (s : Session) (env : String) : Prop :=
  ∃ p ∈ db.principals.rows, ∃ r ∈ db.roles,
    r.oid = p.principalOid ∧ r.rolname = p.principalName ∧ r.rolname = s.user ∧ r.rolcanlogin ∧
      p.mathEnv = env

instance (db : Database) (s : Session) (env : String) : Decidable (namespaceAllowed db s env) :=
  inferInstanceAs (Decidable (∃ p ∈ db.principals.rows, ∃ r ∈ db.roles, _))

/-- `pc_assert_namespace` -/
def assertNamespace (db : Database) (s : Session) (env : String) : Except DbError Unit :=
  require (namespaceAllowed db s env) "P2030" "NAMESPACE_AUTHORITY_REQUIRED"

/-- The namespace may write for the conversation, unless a transition has withdrawn it. -/
def Database.enabled (db : Database) (k : ConvKey) : Bool :=
  ((db.authority.find k).map (·.enabled)).getD true

/-- `pc_writer_allowed` -/
def writerAllowed (db : Database) (s : Session) (k : ConvKey) : Except DbError Bool :=
  if ¬namespaceAllowed db s k.1 then .ok false
  else if !s.readCommitted then .error (.raised "P2033" "WRITER_READ_COMMITTED_REQUIRED")
  else if k.2 ∉ db.conversations then .ok false
  else .ok (db.enabled k)

/-- `pc_assert_writer` -/
def assertWriter (db : Database) (s : Session) (k : ConvKey) : Except DbError Unit := do
  let allowed ← writerAllowed db s k
  require (allowed = true) "P2033" "WRITER_AUTHORITY_REQUIRED"

/-! ## Ticks -/

/-- `greatest(a,b)`, which ignores NULL. -/
def greatest : Option ℤ → Option ℤ → Option ℤ
  | some a, some b => some (max a b)
  | some a, none => some a
  | none, b => b

/-- `max(..)` over rows -/
def maxOf (ts : List ℤ) : Option ℤ := ts.foldr (fun t m => greatest (some t) m) none

/-- `max(g.math_tick)` over the receipts of the conversation. -/
def Database.lastReceipt (db : Database) (k : ConvKey) : Option ℤ :=
  maxOf ((db.generations.rows.filter fun g => (g.mathEnv, g.zid) = k).map (·.mathTick))

def Database.pointer (db : Database) (k : ConvKey) : Option ℤ := (db.ticks.find k).map (·.mathTick)

def Database.floor (db : Database) (k : ConvKey) : Option ℤ := (db.floors.find k).map (·.mathTick)

/-- The generation that a publication expects. -/
def Database.currentTick (db : Database) (k : ConvKey) : Option ℤ :=
  greatest (greatest (db.pointer k) (db.lastReceipt k)) (db.floor k)

/-- `coalesce(tick+1,0)` -/
def nextTick (tick : Option ℤ) : ℤ := (tick.map (· + 1)).getD 0

/-- The receipt of an operation. -/
def Database.receipt (db : Database) (k : OpKey) : Option GenerationRow :=
  db.generations.rows.find? fun g => (g.mathEnv, g.zid, g.operationId) = k

/-- The payloads of a generation. -/
def Database.payloadsOf (db : Database) (k : ConvKey) (tick : ℤ) : List PayloadRow :=
  db.payloads.rows.filter fun p => (p.mathEnv, p.zid) = k ∧ p.mathTick = tick

/-- `nextval('polis_coordinator_caching_tick')` -/
def nextval (db : Database) : Except DbError (ℤ × Database) :=
  if db.cachingTick < maxTick then
    .ok (db.cachingTick + 1, { db with cachingTick := db.cachingTick + 1 })
  else .error .outOfRange

/-! ## The request -/

/-- The arguments of `pc_publish`. -/
structure PublishArgs where
  env : String
  zid : ℤ
  owner : String
  epoch : ℤ
  operation : String
  capability : Bytes
  expectedTick : Option ℤ
  checkpoint : Json Decimal
  main : Bytes
  bidtopid : Bytes
  ptptstats : Bytes

/-- The members of an object. -/
def members? : Json Decimal → Option (List (String × Json Decimal))
  | .object m => some m
  | _ => none

/-- `value->key` -/
def member (v : Json Decimal) (key : String) : Option (Json Decimal) :=
  ((members? v).getD []).lookup key

/-- `IS NOT DISTINCT FROM` for `jsonb`, which compares numbers by value. -/
def sameJson (a b : Option (Json Decimal)) : Prop := a.map pcCanonical = b.map pcCanonical

instance (a b : Option (Json Decimal)) : Decidable (sameJson a b) :=
  inferInstanceAs (Decidable (_ = _))

/-- The members that a receipt adds to its checkpoint. -/
def receiptMembers : List String :=
  ["operation_id", "publisher_epoch", "original_digests", "payload_digests"]

/-- `'UTF8'` -/
def utf8 (s : String) : Bytes := s.toByteArray.data.toList

variable (b : Builtins)

def PublishArgs.valid (a : PublishArgs) : Prop :=
  hasLength a.env 1 999 ∧ hasLength a.owner 1 128 ∧ 0 < a.epoch ∧ hasLength a.operation 1 128 ∧
    a.capability.length = 32 ∧ tickIn a.expectedTick 0 (maxTick - 1) ∧
    (members? a.checkpoint).isSome ∧ (∀ key ∈ receiptMembers, member a.checkpoint key = none) ∧
    (utf8 (b.text a.checkpoint)).length ≤ 65536

instance (v : Json Decimal) (key : String) : Decidable (member v key = none) :=
  decidable_of_iff ((member v key).isNone = true) Option.isNone_iff_eq_none

instance (a : PublishArgs) : Decidable (a.valid b) := inferInstanceAs (Decidable (_ ∧ _))

/-- `to_jsonb(n)` -/
def jsonInt (n : ℤ) : Json Decimal := .number ⟨n, 0⟩

/-- The three payloads, and the time of the last vote that they agree on. -/
structure PayloadData where
  main : Json Decimal
  bidtopid : Json Decimal
  ptptstats : Json Decimal
  stamp : ℤ

/-- `::numeric::bigint`, of a whole number. -/
def voteTimestamp : Option (Json Decimal) → Except DbError ℤ
  | some (.number d) => do
    require (d.trimScale.scale = 0) "P2010" "INVALID_VOTE_TIMESTAMP"
    if -2 ^ 63 ≤ d.trimScale.mantissa ∧ d.trimScale.mantissa < 2 ^ 63 then .ok d.trimScale.mantissa
    else .error .outOfRange
  | _ => .error (.raised "P2010" "FOREIGN_OR_INCONSISTENT_PAYLOAD")

/-- The payloads of one conversation and one prefix of its votes. -/
def PublishArgs.data (a : PublishArgs) : Except DbError PayloadData := do
  require (b.uniqueObject a.main ∧ b.uniqueObject a.bidtopid ∧ b.uniqueObject a.ptptstats) "P2010"
    "INVALID_ORIGINAL_JSON"
  match b.jsonb a.main, b.jsonb a.bidtopid, b.jsonb a.ptptstats with
  | some main, some bidtopid, some ptptstats =>
    let zid := some (jsonInt a.zid)
    let stamp := member main "lastVoteTimestamp"
    require (sameJson (member main "zid") zid ∧ sameJson (member bidtopid "zid") zid ∧
      sameJson (member ptptstats "zid") zid ∧
      sameJson stamp (member bidtopid "lastVoteTimestamp") ∧
      sameJson stamp (member ptptstats "lastVoteTimestamp")) "P2010"
      "FOREIGN_OR_INCONSISTENT_PAYLOAD"
    let stamp ← voteTimestamp stamp
    .ok ⟨main, bidtopid, ptptstats, stamp⟩
  | _, _, _ => .error .outOfRange

/-- `encode(sha256(convert_to(pc_canonical(..),'UTF8')),'hex')` -/
def storageSha256 (v : Json Decimal) : String := b.sha256 (utf8 (String.ofList (pcCanonical v)))

/-- `encode(sha256(convert_to(checkpoint::text,'UTF8')),'hex')` -/
def checkpointDigest (v : Json Decimal) : String := b.sha256 (utf8 (b.text v))

def PublishArgs.originals (a : PublishArgs) : Digests :=
  ⟨b.sha256 a.main, b.sha256 a.bidtopid, b.sha256 a.ptptstats⟩

def PayloadData.storage (d : PayloadData) : Digests :=
  ⟨storageSha256 b d.main, storageSha256 b d.bidtopid, storageSha256 b d.ptptstats⟩

/-- The checkpoint as the receipt records it. -/
def PublishArgs.recorded (a : PublishArgs) (d : PayloadData) : InputCheckpoint where
  base := a.checkpoint
  operationId := a.operation
  publisherEpoch := a.epoch
  originalDigests := a.originals b
  payloadDigests := d.storage b

def Digests.json (d : Digests) : Json Decimal :=
  .object [("main", .string d.main), ("bidtopid", .string d.bidtopid),
    ("ptptstats", .string d.ptptstats)]

/-- `checkpoint||jsonb_build_object(..)` -/
def InputCheckpoint.json (c : InputCheckpoint) : Json Decimal :=
  .object (sortMembers jsonbKey ((members? c.base).getD [] ++
    [("operation_id", .string c.operationId), ("publisher_epoch", jsonInt c.publisherEpoch),
      ("original_digests", c.originalDigests.json), ("payload_digests", c.payloadDigests.json)]))

/-- `IS NOT DISTINCT FROM` for recorded checkpoints. -/
def InputCheckpoint.same (c d : InputCheckpoint) : Prop :=
  sameJson (some c.base) (some d.base) ∧ c.operationId = d.operationId ∧
    c.publisherEpoch = d.publisherEpoch ∧ c.originalDigests = d.originalDigests ∧
    c.payloadDigests = d.payloadDigests

instance (c d : InputCheckpoint) : Decidable (c.same d) := inferInstanceAs (Decidable (_ ∧ _))

/-! ## The call -/

def PublishArgs.conv (a : PublishArgs) : ConvKey := (a.env, a.zid)

def PublishArgs.op (a : PublishArgs) : OpKey := (a.env, a.zid, a.operation)

/-- The replies of `pc_publish`. -/
inductive Published
  | committed (mathTick cachingTick : ℤ)
  | alreadyCommitted (mathTick cachingTick : ℤ)
  | conflict (mathTick : Option ℤ)
deriving DecidableEq, Repr

/-- The request is the one that the receipt records. -/
def exactReplay (db : Database) (a : PublishArgs) (d : PayloadData) (g : GenerationRow) : Prop :=
  g.ownerId = a.owner ∧ g.publisherEpoch = a.epoch ∧ g.capabilitySha256 = b.sha256 a.capability ∧
    g.expectedTick = a.expectedTick ∧ g.inputCheckpoint.same (a.recorded b d) ∧
    ((db.payloadsOf a.conv g.mathTick).filter fun r =>
      r.originalSha256 = (a.originals b).get r.payloadKind ∧
        r.storageSha256 = (d.storage b).get r.payloadKind).length = 3

instance (db : Database) (a : PublishArgs) (d : PayloadData) (g : GenerationRow) :
    Decidable (exactReplay b db a d g) := inferInstanceAs (Decidable (_ ∧ _))

/-- The columns of the dispatch are those of the request. -/
def DispatchColumns.isFor (c : DispatchColumns) (a : PublishArgs) : Prop :=
  c.operationId = a.operation ∧ c.capabilitySha256 = b.sha256 a.capability ∧
    c.checkpointSha256 = checkpointDigest b a.checkpoint ∧ c.expectedTick = a.expectedTick

instance (c : DispatchColumns) (a : PublishArgs) : Decidable (c.isFor b a) :=
  inferInstanceAs (Decidable (_ ∧ _))

/-- The operation was admitted for the request. -/
def OperationRow.isFor (o : OperationRow) (a : PublishArgs) : Prop :=
  o.ownerId = a.owner ∧ o.ownerEpoch = a.epoch ∧ o.expectedTick = a.expectedTick ∧
    o.capabilitySha256 = b.sha256 a.capability ∧
    o.checkpointSha256 = checkpointDigest b a.checkpoint ∧ o.state ≠ .resolved

instance (o : OperationRow) (a : PublishArgs) : Decidable (o.isFor b a) :=
  inferInstanceAs (Decidable (_ ∧ _))

/-- What a receipt of the request takes of its reservation. -/
def PublishArgs.bytes (a : PublishArgs) (d : PayloadData) : ℤ :=
  a.main.length + a.bidtopid.length + a.ptptstats.length +
    (utf8 (b.text (a.recorded b d).json)).length + 1048576

/-- The lease of the request, its dispatch and its operation, all of which must be exactly its own. -/
def authorize (db : Database) (s : Session) (clock : Clock) (a : PublishArgs) (d : PayloadData) :
    Except DbError (LeaseRow × DispatchColumns) := do
  assertWriter db s a.conv
  match db.leases.find a.conv with
  | none => .error (.raised "P2003" "FENCED")
  | some lease =>
    require (lease.ownerId = a.owner ∧ lease.ownerEpoch = a.epoch) "P2003" "FENCED"
    require (clock.read 0 < lease.expiresAt) "P2005" "LEASE-EXPIRED"
    match lease.dispatch with
    | none => .error (.raised "P2010" "DISPATCH_IDENTITY_CONFLICT")
    | some dispatch =>
      require (dispatch.isFor b a) "P2010" "DISPATCH_IDENTITY_CONFLICT"
      match db.operations.find a.op with
      | none => .error (.raised "P2020" "OPERATION_NOT_ADMITTED")
      | some o =>
        require (o.xmin ≠ db.xid) "P2020" "ADMISSION_NOT_DURABLE"
        require (o.isFor b a) "P2020" "ADMISSION_IDENTITY_CONFLICT"
        require (a.bytes b d ≤ o.reservedBytes) "P2021" "PUBLICATION_BYTE_CAPACITY"
        .ok (lease, dispatch)

/-- The receipt that a publication writes. -/
def PublishArgs.generation (a : PublishArgs) (d : PayloadData) (tick cursor : ℤ) : GenerationRow where
  mathEnv := a.env
  zid := a.zid
  mathTick := tick
  cachingTick := cursor
  ownerId := a.owner
  publisherEpoch := a.epoch
  operationId := a.operation
  capabilitySha256 := b.sha256 a.capability
  expectedTick := a.expectedTick
  inputCheckpoint := a.recorded b d

/-- A payload of the receipt. -/
def PublishArgs.payload (a : PublishArgs) (d : PayloadData) (tick : ℤ) (kind : PayloadKind) :
    PayloadRow where
  mathEnv := a.env
  zid := a.zid
  mathTick := tick
  payloadKind := kind
  originalBytes := match kind with
    | .main => a.main
    | .bidtopid => a.bidtopid
    | .ptptstats => a.ptptstats
  originalSha256 := (a.originals b).get kind
  storageSha256 := (d.storage b).get kind

/-- The pointer and the current rows. -/
def writeMath (db : Database) (k : ConvKey) (d : PayloadData) (tick : ℤ) :
    Except DbError (ℤ × Database) := do
  let db ← write (db.ticks.upsert ⟨k.1, k.2, tick⟩ fun t => { t with mathTick := tick }) fun ticks =>
    { db with ticks }
  let db ← write (db.bidtopid.upsert ⟨k.1, k.2, tick, d.bidtopid⟩ fun r =>
    { r with mathTick := tick, data := d.bidtopid }) fun bidtopid => { db with bidtopid }
  let db ← write (db.ptptstats.upsert ⟨k.1, k.2, tick, d.ptptstats⟩ fun r =>
    { r with mathTick := tick, data := d.ptptstats }) fun ptptstats => { db with ptptstats }
  let (cursor, db) ← nextval db
  let db ← write (db.main.upsert ⟨k.1, k.2, tick, d.main, d.stamp, cursor⟩ fun r =>
    { r with mathTick := tick, data := d.main, lastVoteTimestamp := d.stamp, cachingTick := cursor })
    fun main => { db with main }
  .ok (cursor, db)

/-- The receipt, its payloads and the floor. -/
def writeReceipt (db : Database) (a : PublishArgs) (d : PayloadData) (tick cursor : ℤ) :
    Except DbError Database := do
  let db ← write (db.generations.insert (a.generation b d tick cursor)) fun generations =>
    { db with generations }
  let db ← write (db.payloads.insert (a.payload b d tick .main)) fun payloads => { db with payloads }
  let db ← write (db.payloads.insert (a.payload b d tick .bidtopid)) fun payloads =>
    { db with payloads }
  let db ← write (db.payloads.insert (a.payload b d tick .ptptstats)) fun payloads =>
    { db with payloads }
  write (db.floors.upsert ⟨a.env, a.zid, tick, cursor⟩ fun f =>
    { f with mathTick := max f.mathTick tick, cachingTick := max f.cachingTick cursor })
    fun floors => { db with floors }

/-- `pc_publish` -/
def pcPublish (db : Database) (s : Session) (clock : Clock) (a : PublishArgs) :
    Except DbError (Published × Database) := do
  assertNamespace db s a.env
  require (a.valid b) "P2010" "INVALID_PUBLICATION_REQUEST"
  let d ← a.data b
  require (a.zid ∈ db.conversations) "P2010" "UNKNOWN_CONVERSATION"
  match db.receipt a.op with
  | some g => do
    require (exactReplay b db a d g) "P2011" "OPERATION_IDENTITY_CONFLICT"
    .ok (.alreadyCommitted g.mathTick g.cachingTick, db)
  | none => do
    let (lease, dispatch) ← authorize b db s clock a d
    if db.currentTick a.conv ≠ a.expectedTick then .ok (.conflict (db.currentTick a.conv), db)
    else do
      let tick := nextTick (db.currentTick a.conv)
      let (cursor, db) ← writeMath db a.conv d tick
      let db ← writeReceipt b db a d tick cursor
      -- The lease is locked, so its row is still the one that was read.
      require (clock.read 1 + 1000 * dispatch.marginMs < lease.expiresAt) "P2005" "LEASE-EXPIRED"
      .ok (.committed tick cursor, db)

end Polis.Coordinator
