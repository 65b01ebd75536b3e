import Polis.Coordinator.RetentionTheorems

/-!
# Operation reconciliation

The control process reads back what became of an operation: `pc_reconcile` and its own check of the bytes
of the payloads are one transaction. A receipt that it cannot check leaves the operation as it was.

Reference: `coordinator-rs/src/operations.rs` (`reconcile_one`, `reconcile_pending`).
-/

namespace Polis.Coordinator

open Json
open Queue (Time Clock)

/-- What the control process makes of bytes: `wire::parse`, with the number tokens that `serde_json`
prints, and the text that `serde_json::to_writer` gives a string. -/
structure Wire where
  parse : Bytes → Option Value
  toWriter : String → Text

/-- Why a dispatch or a readback fails. -/
inductive BridgeError
  | token (message : String)
  | lease (state : LeaseState)
  | database (e : DbError)
  /-- The connection, the process or a pipe failed. -/
  | transport
  | commitLost
deriving DecidableEq, Repr

variable (b : Builtins) (w : Wire)

/-- `wire::parse(&raw).ok().and_then(|v| storage_digest(&v).ok())` -/
def Wire.digest (raw : Bytes) : Option String :=
  (w.parse raw).bind fun v =>
    (storageText w.toWriter v).map fun text => b.sha256 (utf8 (String.ofList text))

/-! ## One operation -/

/-- The receipt and its checkpoint are those of the operation. -/
def OperationRow.recordedIn (o : OperationRow) (g : GenerationRow) : Prop :=
  o.identifies b g ∧ g.inputCheckpoint.publisherEpoch = o.ownerEpoch ∧
    g.inputCheckpoint.operationId = o.operationId

instance (o : OperationRow) (g : GenerationRow) : Decidable (o.identifies b g) :=
  inferInstanceAs (Decidable (_ ∧ _))

instance (o : OperationRow) (g : GenerationRow) : Decidable (o.recordedIn b g) :=
  inferInstanceAs (Decidable (_ ∧ _))

/-- The bytes of a payload are those that the receipt records, as the control process reads them. -/
def PayloadRow.verified (p : PayloadRow) (g : GenerationRow) : Prop :=
  p.originalSha256 = b.sha256 p.originalBytes ∧
    g.inputCheckpoint.originalDigests.get p.payloadKind = b.sha256 p.originalBytes ∧
    g.inputCheckpoint.payloadDigests.get p.payloadKind = p.storageSha256 ∧
    w.digest b p.originalBytes = some p.storageSha256

instance (p : PayloadRow) (g : GenerationRow) : Decidable (p.verified b w g) :=
  inferInstanceAs (Decidable (_ ∧ _))

/-- The receipt has three payloads, all of which verify. -/
def Database.verifies (db : Database) (g : GenerationRow) : Prop :=
  (db.payloadsOf (g.mathEnv, g.zid) g.mathTick).length = 3 ∧
    ∀ p ∈ db.payloadsOf (g.mathEnv, g.zid) g.mathTick, p.verified b w g

instance (db : Database) (g : GenerationRow) : Decidable (db.verifies b w g) :=
  inferInstanceAs (Decidable (_ ∧ _))

/-- `reconcile_one`; a transaction that is rolled back leaves the database as it was. -/
def reconcileOne (db : Database) (s : Session) (clock : Clock) (k : OpKey) :
    Except BridgeError (Option ℤ × Database) :=
  match pcReconcile b db s clock k with
  | .error e =>
    if e = .raised "P2020" "RECEIPT_IDENTITY_CONFLICT" then .ok (none, db)
    else .error (.database e)
  | .ok (resolved, db') =>
    match db'.operations.find k, db'.receipt k with
    | some o, some g =>
      -- The durable nonterminal reservation stays charged.
      if ¬o.recordedIn b g then .ok (none, db)
      else if ¬db'.verifies b w g then .ok (none, db)
      else if resolved then .ok (some g.mathTick, { db' with xid := db.xid + 1 })
      else .error (.token "RECONCILIATION_REPLY")
    | _, _ =>
      if resolved then .error (.token "RECONCILIATION_REPLY")
      else .ok (none, { db' with xid := db.xid + 1 })

/-! ## Pending operations -/

/-- The operation is not resolved, and it has its receipt or is not the dispatch of a live lease. -/
def Database.isPending (db : Database) (clock : Clock) (env : String) (o : OperationRow) : Prop :=
  o.mathEnv = env ∧ o.state ≠ .resolved ∧
    (¬(∃ l ∈ db.leases.find (o.mathEnv, o.zid), (∃ d ∈ l.dispatch, d.operationId = o.operationId) ∧
        clock.read 0 < l.expiresAt) ∨ (db.receipt o.key).isSome)

instance (db : Database) (clock : Clock) (env : String) (o : OperationRow) :
    Decidable (db.isPending clock env o) := inferInstanceAs (Decidable (_ ∧ _))

/-- `ORDER BY reconciled_at,zid,operation_id` -/
def OperationRow.before (collate : String → String → Bool) (o o' : OperationRow) : Bool :=
  if o.reconciledAt ≠ o'.reconciledAt then
    match o.reconciledAt, o'.reconciledAt with
    | none, _ => true
    | some _, none => false
    | some t, some t' => t ≤ t'
  else if o.zid ≠ o'.zid then o.zid ≤ o'.zid
  else collate o.operationId o'.operationId

/-- The operations that `reconcile_pending` takes, oldest first; its limit is between 1 and 1000. -/
def pendingPage (collate : String → String → Bool) (db : Database) (clock : Clock) (env : String)
    (limit : ℕ) : List OpKey :=
  (((db.operations.rows.filter fun o => db.isPending clock env o).insertionSort
    fun o o' => o.before collate o' = true).take limit).map (·.key)

/-- A pass of `reconcile_pending` over its page, which the first failure would end. Other calls come in
between. -/
inductive Pass (s : Session) : Database → List OpKey → List Event → Database → Prop
  | nil {db : Database} : Pass s db [] [] db
  | others {db db₁ db₂ : Database} {ks : List OpKey} {es es' : List Event} :
      Run (Step b) db es db₁ → Pass s db₁ ks es' db₂ → Pass s db ks (es ++ es') db₂
  | next {db db₁ db₂ : Database} {k : OpKey} {ks : List OpKey} {es : List Event} {clock : Clock}
      {r : Option ℤ} : reconcileOne b w db s clock k = .ok (r, db₁) → Pass s db₁ ks es db₂ →
      Pass s db (k :: ks) es db₂

end Polis.Coordinator
