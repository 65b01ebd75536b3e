import Polis.Coordinator.Machine

/-!
# What the calls do

One lemma for each call: what a successful call has checked, and the tables that it has replaced.
-/

namespace Polis.Coordinator

open Json
open Queue (Time Clock isSha256)

variable {b : Builtins} {db db' : Database} {s : Session} {clock : Clock}
variable {k : ConvKey} {a : TransitionArgs} {tick cursor : ℤ} {owner : String}

/-! ## Authority -/

theorem assertNamespace_eq_ok {env : String} {u : Unit} :
    assertNamespace db s env = .ok u ↔ namespaceAllowed db s env := require_eq_ok

theorem writerAllowed_eq_true (h : writerAllowed db s k = .ok true) :
    namespaceAllowed db s k.1 ∧ k.2 ∈ db.conversations ∧ db.enabled k = true := by
  unfold writerAllowed at h
  split at h
  · cases h
  · next hns =>
      split at h
      · cases h
      · split at h
        · cases h
        · next hconv => exact ⟨not_not.1 hns, not_not.1 hconv, by simpa using h⟩

theorem assertWriter_ok {u : Unit} (h : assertWriter db s k = .ok u) :
    namespaceAllowed db s k.1 ∧ k.2 ∈ db.conversations ∧ db.enabled k = true := by
  obtain ⟨allowed, hallowed, hreq⟩ := bind_eq_ok.1 h
  rw [require_eq_ok.1 hreq] at hallowed
  exact writerAllowed_eq_true hallowed

/-! ## Leases -/

theorem updateLease_ok {f : LeaseRow → LeaseRow} (h : db.updateLease k f = .ok db')
    (hf : ∀ l, Row.key (f l) = Row.key l) :
    ∃ leases, db' = { db with leases } ∧
      ∀ k', leases.find k' = if k' = k then (db.leases.find k).map f else db.leases.find k' := by
  obtain ⟨leases, hupdate, rfl⟩ := write_eq_ok.1 h
  exact ⟨leases, rfl, fun k' => Table.find_update hf hupdate⟩

/-- An acquired lease has a greater epoch than before, and no dispatch. -/
theorem acquire_ok {n : ℤ} {epoch : Option ℤ}
    (h : acquire db s clock k owner n = .ok (epoch, db')) :
    (epoch = none ∧ db' = db) ∨
      ∃ l leases, epoch = some l.ownerEpoch ∧ db' = { db with leases } ∧ l.dispatch = none ∧
        (∀ l₀, db.leases.find k = some l₀ → l₀.ownerEpoch < l.ownerEpoch) ∧
        ∀ k', leases.find k' = if k' = k then some l else db.leases.find k' := by
  obtain ⟨allowed, -, h⟩ := bind_eq_ok.1 h
  split at h
  · cases h
    exact .inl ⟨rfl, rfl⟩
  · cases hfind : db.leases.find k with
    | none =>
      simp only [hfind] at h
      obtain ⟨db₁, hwrite, h⟩ := bind_eq_ok.1 h
      obtain ⟨leases, hinsert, rfl⟩ := write_eq_ok.1 hwrite
      cases h
      refine .inr ⟨⟨k.1, k.2, owner, 1, clock.read 0 + seconds n, none⟩, leases, rfl, rfl, rfl, ?_,
        fun k' => Table.find_insert hinsert⟩
      intro l₀ h₀
      cases h₀
    | some l =>
      simp only [hfind] at h
      split at h
      · cases h
        exact .inl ⟨rfl, rfl⟩
      · split at h
        · cases h
        · obtain ⟨db₁, hwrite, h⟩ := bind_eq_ok.1 h
          obtain ⟨leases, rfl, hleases⟩ := updateLease_ok hwrite fun _ => rfl
          cases h
          refine .inr ⟨{ l with ownerId := owner, ownerEpoch := l.ownerEpoch + 1, dispatch := none,
                                expiresAt := clock.read 0 + seconds n }, leases, rfl, rfl, rfl, ?_,
            fun k' => ?_⟩
          · intro l₀ h₀
            cases h₀
            exact lt_add_one l.ownerEpoch
          · rw [hleases, hfind]
            rfl

/-- What the other lease calls do to the lease: they move its expiry, or they set a dispatch. -/
theorem renew_ok {epoch n : ℤ} {r : Renewed}
    (h : renew db s clock k owner epoch n = .ok (r, db')) :
    db' = db ∨ ∃ leases expires, db' = { db with leases } ∧ ∀ k', leases.find k' =
      if k' = k then (db.leases.find k).map fun l => { l with expiresAt := expires }
      else db.leases.find k' := by
  obtain ⟨allowed, -, h⟩ := bind_eq_ok.1 h
  split at h
  · cases h
    exact .inl rfl
  · split at h
    · obtain ⟨db₁, hwrite, h⟩ := bind_eq_ok.1 h
      obtain ⟨leases, rfl, hleases⟩ := updateLease_ok hwrite fun _ => rfl
      cases h
      exact .inr ⟨leases, _, rfl, hleases⟩
    · cases h
      exact .inl rfl

theorem release_ok {epoch : ℤ} (h : release db s clock k owner epoch = .ok db') :
    db' = db ∨ ∃ leases expires, db' = { db with leases } ∧ ∀ k', leases.find k' =
      if k' = k then (db.leases.find k).map fun l => { l with expiresAt := expires }
      else db.leases.find k' := by
  obtain ⟨allowed, -, h⟩ := bind_eq_ok.1 h
  split at h
  · cases h
    exact .inl rfl
  · split at h
    · obtain ⟨leases, rfl, hleases⟩ := updateLease_ok h fun _ => rfl
      exact .inr ⟨leases, _, rfl, hleases⟩
    · cases h
      exact .inl rfl

theorem dispatchLease_ok {epoch : ℤ} {d : DispatchColumns}
    {r : Option LeaseState} (h : dispatchLease db s clock k owner epoch d = .ok (r, db')) :
    (r ≠ none ∧ db' = db) ∨ ∃ l leases, r = none ∧ db.leases.find k = some l ∧
      l.ownedBy owner epoch ∧ clock.read 0 < l.expiresAt ∧ db' = { db with leases } ∧
      ∀ k', leases.find k' =
        if k' = k then some { l with dispatch := some d } else db.leases.find k' := by
  obtain ⟨allowed, -, h⟩ := bind_eq_ok.1 h
  split at h
  · cases h
    exact .inl ⟨by simp, rfl⟩
  · split at h
    · next hany =>
        obtain ⟨db₁, hwrite, h⟩ := bind_eq_ok.1 h
        obtain ⟨leases, rfl, hleases⟩ := updateLease_ok hwrite fun _ => rfl
        cases h
        obtain ⟨l, hl, howned⟩ := (Option.any_eq_true _ _).1 hany
        obtain ⟨howned, hlive⟩ := of_decide_eq_true howned
        rw [hl] at hleases
        exact .inr ⟨l, leases, rfl, hl, howned, hlive, rfl, hleases⟩
    · cases h
      exact .inl ⟨by simp, rfl⟩

/-! ## Publication -/

/-- The four math rows of a conversation are at the tick; the others are as they were. -/
structure Moved (db : Database) (k : ConvKey) (tick : ℤ) (ticks : Table TicksRow)
    (main : Table MainRow) (bidtopid ptptstats : Table DataRow) : Prop where
  ticks : ∀ k', (ticks.find k').map (·.mathTick) =
    if k' = k then some tick else (db.ticks.find k').map (·.mathTick)
  main : ∀ k', (main.find k').map (·.mathTick) =
    if k' = k then some tick else (db.main.find k').map (·.mathTick)
  bidtopid : ∀ k', (bidtopid.find k').map (·.mathTick) =
    if k' = k then some tick else (db.bidtopid.find k').map (·.mathTick)
  ptptstats : ∀ k', (ptptstats.find k').map (·.mathTick) =
    if k' = k then some tick else (db.ptptstats.find k').map (·.mathTick)

theorem nextval_ok (h : nextval db = .ok (cursor, db')) :
    cursor = db.cachingTick + 1 ∧ db.cachingTick < maxTick ∧
      db' = { db with cachingTick := cursor } := by
  unfold nextval at h
  split at h
  · next hlt =>
      cases h
      exact ⟨rfl, hlt, rfl⟩
  · cases h

theorem writeMath_ok {d : PayloadData} (h : writeMath db k d tick = .ok (cursor, db')) :
    cursor = db.cachingTick + 1 ∧ ∃ ticks main bidtopid ptptstats,
      Moved db k tick ticks main bidtopid ptptstats ∧
      db' = { db with ticks, main, bidtopid, ptptstats, cachingTick := cursor } := by
  obtain ⟨db₁, h₁, h⟩ := bind_eq_ok.1 h
  obtain ⟨ticks, hticks, rfl⟩ := write_eq_ok.1 h₁
  obtain ⟨db₂, h₂, h⟩ := bind_eq_ok.1 h
  obtain ⟨bidtopid, hbid, rfl⟩ := write_eq_ok.1 h₂
  obtain ⟨db₃, h₃, h⟩ := bind_eq_ok.1 h
  obtain ⟨ptptstats, hptpt, rfl⟩ := write_eq_ok.1 h₃
  obtain ⟨⟨n, db₄⟩, h₄, h⟩ := bind_eq_ok.1 h
  obtain ⟨rfl, -, rfl⟩ := nextval_ok h₄
  obtain ⟨db₅, h₅, h⟩ := bind_eq_ok.1 h
  obtain ⟨main, hmain, rfl⟩ := write_eq_ok.1 h₅
  cases h
  refine ⟨rfl, ticks, main, bidtopid, ptptstats, ?_, rfl⟩
  constructor
  · intro k'
    exact Table.map_find_upsert hticks (fun _ => rfl) fun _ => rfl
  · intro k'
    exact Table.map_find_upsert hmain (fun _ => rfl) fun _ => rfl
  · intro k'
    exact Table.map_find_upsert hbid (fun _ => rfl) fun _ => rfl
  · intro k'
    exact Table.map_find_upsert hptpt (fun _ => rfl) fun _ => rfl

/-- The floor of a publication. -/
def PublishArgs.floor (a : PublishArgs) (db : Database) (tick cursor : ℤ) : FloorRow :=
  match db.floors.find a.conv with
  | some f => { f with mathTick := max f.mathTick tick, cachingTick := max f.cachingTick cursor }
  | none => ⟨a.env, a.zid, tick, cursor⟩

/-- The receipt of a publication, its payloads and its floor are in the tables. -/
structure Recorded (b : Builtins) (db : Database) (a : PublishArgs) (d : PayloadData)
    (tick cursor : ℤ) (generations : Table GenerationRow) (payloads : Table PayloadRow)
    (floors : Table FloorRow) : Prop where
  generations : db.generations.insert (a.generation b d tick cursor) = .ok generations
  payloads : ∃ p q, db.payloads.insert (a.payload b d tick .main) = .ok p ∧
    p.insert (a.payload b d tick .bidtopid) = .ok q ∧
    q.insert (a.payload b d tick .ptptstats) = .ok payloads
  floors : ∀ k', floors.find k' =
    if k' = a.conv then some (a.floor db tick cursor) else db.floors.find k'

theorem writeReceipt_ok {a : PublishArgs} {d : PayloadData}
    (h : writeReceipt b db a d tick cursor = .ok db') :
    ∃ generations payloads floors, Recorded b db a d tick cursor generations payloads floors ∧
      db' = { db with generations, payloads, floors } := by
  obtain ⟨db₁, h₁, h⟩ := bind_eq_ok.1 h
  obtain ⟨generations, hgen, rfl⟩ := write_eq_ok.1 h₁
  obtain ⟨db₂, h₂, h⟩ := bind_eq_ok.1 h
  obtain ⟨p, hp, rfl⟩ := write_eq_ok.1 h₂
  obtain ⟨db₃, h₃, h⟩ := bind_eq_ok.1 h
  obtain ⟨q, hq, rfl⟩ := write_eq_ok.1 h₃
  obtain ⟨db₄, h₄, h⟩ := bind_eq_ok.1 h
  obtain ⟨r, hr, rfl⟩ := write_eq_ok.1 h₄
  obtain ⟨floors, hfloors, rfl⟩ := write_eq_ok.1 h
  refine ⟨generations, r, floors, ⟨hgen, ⟨p, q, hp, hq, hr⟩, fun k' => ?_⟩, rfl⟩
  rw [Table.find_upsert hfloors fun _ => rfl]
  refine if_congr Iff.rfl (congrArg some ?_) rfl
  unfold PublishArgs.floor
  change ((db.floors.find a.conv).map _).getD _ = _
  cases db.floors.find a.conv <;> rfl

/-- What a writing publication has checked. -/
structure Authorized (b : Builtins) (db : Database) (s : Session) (clock : Clock) (a : PublishArgs)
    (d : PayloadData) : Prop where
  allowed : namespaceAllowed db s a.env
  valid : a.valid b
  conversation : a.zid ∈ db.conversations
  data : a.data b = .ok d
  unwritten : db.receipt a.op = none
  enabled : db.enabled a.conv = true
  dispatched : ∃ lease dispatch, db.leases.find a.conv = some lease ∧
    lease.ownedBy a.owner a.epoch ∧ clock.read 0 < lease.expiresAt ∧
    clock.read 1 + 1000 * dispatch.marginMs < lease.expiresAt ∧ lease.dispatch = some dispatch ∧
    dispatch.isFor b a
  admitted : ∃ o, db.operations.find a.op = some o ∧ o.xmin ≠ db.xid ∧ o.isFor b a
  current : db.currentTick a.conv = a.expectedTick

/-- A publication whose operation has a receipt only answers. -/
structure Replayed (b : Builtins) (db : Database) (s : Session) (a : PublishArgs) (g : GenerationRow) :
    Prop where
  allowed : namespaceAllowed db s a.env
  valid : a.valid b
  receipt : db.receipt a.op = some g
  exactly : ∃ d, a.data b = .ok d ∧ exactReplay b db a d g

theorem authorize_ok {a : PublishArgs} {d : PayloadData} {lease : LeaseRow} {c : DispatchColumns}
    (h : authorize b db s clock a d = .ok (lease, c)) :
    db.enabled a.conv = true ∧ db.leases.find a.conv = some lease ∧
      lease.ownedBy a.owner a.epoch ∧ clock.read 0 < lease.expiresAt ∧ lease.dispatch = some c ∧
      c.isFor b a ∧
      ∃ o, db.operations.find a.op = some o ∧ o.xmin ≠ db.xid ∧ o.isFor b a := by
  obtain ⟨u, hwriter, h⟩ := bind_eq_ok.1 h
  obtain ⟨-, -, henabled⟩ := assertWriter_ok hwriter
  split at h
  · cases h
  · next l hl =>
      obtain ⟨u, howned, h⟩ := bind_eq_ok.1 h
      obtain ⟨u, hlive, h⟩ := bind_eq_ok.1 h
      split at h
      · cases h
      · next dispatch hd =>
          obtain ⟨u, hfor, h⟩ := bind_eq_ok.1 h
          split at h
          · cases h
          · next o ho =>
              obtain ⟨u, hxmin, h⟩ := bind_eq_ok.1 h
              obtain ⟨u, hisfor, h⟩ := bind_eq_ok.1 h
              obtain ⟨u, hbytes, h⟩ := bind_eq_ok.1 h
              cases h
              exact ⟨henabled, hl, require_eq_ok.1 howned, require_eq_ok.1 hlive, hd,
                require_eq_ok.1 hfor, o, ho, require_eq_ok.1 hxmin, require_eq_ok.1 hisfor⟩

theorem pcPublish_ok {a : PublishArgs} {r : Published} (h : pcPublish b db s clock a = .ok (r, db')) :
    (∃ g, Replayed b db s a g ∧ r = .alreadyCommitted g.mathTick g.cachingTick ∧ db' = db) ∨
    (db.receipt a.op = none ∧ r = .conflict (db.currentTick a.conv) ∧
      db.currentTick a.conv ≠ a.expectedTick ∧ db' = db) ∨
    ∃ d ticks main bidtopid ptptstats generations payloads floors,
      Authorized b db s clock a d ∧
      r = .committed (nextTick (db.currentTick a.conv)) (db.cachingTick + 1) ∧
      Moved db a.conv (nextTick (db.currentTick a.conv)) ticks main bidtopid ptptstats ∧
      Recorded b db a d (nextTick (db.currentTick a.conv)) (db.cachingTick + 1) generations payloads
        floors ∧
      db' = { db with ticks, main, bidtopid, ptptstats, generations, payloads, floors,
                      cachingTick := db.cachingTick + 1 } := by
  obtain ⟨u, hns, h⟩ := bind_eq_ok.1 h
  obtain ⟨u, hvalid, h⟩ := bind_eq_ok.1 h
  obtain ⟨d, hdata, h⟩ := bind_eq_ok.1 h
  obtain ⟨u, hconv, h⟩ := bind_eq_ok.1 h
  rw [assertNamespace_eq_ok] at hns
  rw [require_eq_ok] at hvalid hconv
  split at h
  · next g hg =>
      obtain ⟨u, hexact, h⟩ := bind_eq_ok.1 h
      cases h
      exact .inl ⟨g, ⟨hns, hvalid, hg, d, hdata, require_eq_ok.1 hexact⟩, rfl, rfl⟩
  · next hg =>
      obtain ⟨⟨lease, dispatch⟩, hauth, h⟩ := bind_eq_ok.1 h
      obtain ⟨henabled, hlease, howned, hlive, hdispatch, hfor, hop⟩ := authorize_ok hauth
      by_cases heq : db.currentTick a.conv ≠ a.expectedTick
      · dsimp only at h
        rw [if_pos heq] at h
        cases h
        exact .inr (.inl ⟨hg, rfl, heq, rfl⟩)
      · dsimp only at h
        rw [if_neg heq] at h
        obtain ⟨⟨cursor, db₁⟩, hmath, h⟩ := bind_eq_ok.1 h
        obtain ⟨rfl, ticks, main, bidtopid, ptptstats, hmoved, rfl⟩ := writeMath_ok hmath
        obtain ⟨db₂, hreceipt, h⟩ := bind_eq_ok.1 h
        obtain ⟨generations, payloads, floors, hrec, rfl⟩ := writeReceipt_ok hreceipt
        obtain ⟨u, hmargin, h⟩ := bind_eq_ok.1 h
        cases h
        refine .inr (.inr ⟨d, ticks, main, bidtopid, ptptstats, generations, payloads, floors,
          ⟨hns, hvalid, hconv, hdata, hg, henabled, ?_, hop, not_not.1 heq⟩, rfl, hmoved,
          ⟨hrec.generations, hrec.payloads, hrec.floors⟩, rfl⟩)
        exact ⟨lease, dispatch, hlease, howned, hlive, require_eq_ok.1 hmargin, hdispatch, hfor⟩

/-! ## Admission and retention -/

/-- What a new admission has checked; it inserts the row of the operation. -/
structure NewAdmission (db : Database) (a : AdmitArgs) (operations : Table OperationRow)
    (d : DispatchColumns) : Prop where
  dispatched : ∃ lease, db.leases.find a.conv = some lease ∧ lease.ownedBy a.owner a.epoch ∧
    lease.dispatch = some d
  operation : d.operationId = a.operation
  expected : d.expectedTick = db.currentTick a.conv
  capacity : ∃ budget, db.budgets.find a.env = some budget ∧
    (db.operationsOf a.env).length < budget.maxOperations ∧
    db.usedBytes a.env + a.reservedBytes ≤ budget.maxBytes
  inserted : db.operations.insert (a.row d db.xid) = .ok operations

theorem admissionLease_ok {a : AdmitArgs} {lease : LeaseRow} {d : DispatchColumns}
    (h : admissionLease db a = .ok (lease, d)) :
    db.leases.find a.conv = some lease ∧ lease.ownedBy a.owner a.epoch ∧ lease.dispatch = some d ∧
      d.operationId = a.operation := by
  unfold admissionLease at h
  split at h
  · cases h
  · next l hl =>
      split at h
      · cases h
      · next d' hd =>
          obtain ⟨u, hreq, h⟩ := bind_eq_ok.1 h
          cases h
          obtain ⟨howned, hop⟩ := require_eq_ok.1 hreq
          exact ⟨hl, howned, hd, hop⟩

theorem pcAdmit_ok {a : AdmitArgs} {r : Admitted} (h : pcAdmit db s clock a = .ok (r, db')) :
    (r = .alreadyAdmitted ∧ db' = db) ∨
      ∃ d operations, r = .admitted ∧ NewAdmission db a operations d ∧
        db' = { db with operations } := by
  obtain ⟨u, -, h⟩ := bind_eq_ok.1 h
  obtain ⟨u, -, h⟩ := bind_eq_ok.1 h
  obtain ⟨u, -, h⟩ := bind_eq_ok.1 h
  obtain ⟨⟨lease, d⟩, hlease, h⟩ := bind_eq_ok.1 h
  obtain ⟨hl, howned, hd, hop⟩ := admissionLease_ok hlease
  dsimp only at h
  split at h
  · cases h
  · next budget hbudget =>
      split at h
      · obtain ⟨u, -, h⟩ := bind_eq_ok.1 h
        cases h
        exact .inl ⟨rfl, rfl⟩
      · obtain ⟨db₁, hnew, h⟩ := bind_eq_ok.1 h
        cases h
        obtain ⟨u, -, hnew⟩ := bind_eq_ok.1 hnew
        obtain ⟨u, htick, hnew⟩ := bind_eq_ok.1 hnew
        obtain ⟨u, hcap, hnew⟩ := bind_eq_ok.1 hnew
        obtain ⟨operations, hinsert, rfl⟩ := write_eq_ok.1 hnew
        obtain ⟨hcount, hbytes⟩ := require_eq_ok.1 hcap
        exact .inr ⟨d, operations, rfl, ⟨⟨lease, hl, howned, hd⟩, hop, require_eq_ok.1 htick,
          ⟨budget, hbudget, hcount, hbytes⟩, hinsert⟩, rfl⟩

theorem updateOperation_ok {k : OpKey} {f : OperationRow → OperationRow}
    (h : db.updateOperation k f = .ok db') :
    ∃ operations, db.operations.update k (fun o => { f o with xmin := db.xid }) = .ok operations ∧
      db' = { db with operations } := by
  obtain ⟨operations, hupdate, rfl⟩ := write_eq_ok.1 h
  exact ⟨operations, hupdate, rfl⟩

/-- The row of an operation after its reconciliation. -/
def OperationRow.reconciled (o : OperationRow) (g : Option GenerationRow) (now : Time) (xid : ℕ) :
    OperationRow :=
  { o with
    state := if g.isSome then .resolved else .unresolved
    resolvedTick := g.map (·.mathTick)
    reconciledAt := some now
    xmin := xid }

theorem pcReconcile_ok {k : OpKey} {r : Bool} (h : pcReconcile b db s clock k = .ok (r, db')) :
    ∃ o operations, db.operations.find k = some o ∧ r = (db.receipt k).isSome ∧
      (∀ g, db.receipt k = some g → o.hasReceipt b db g) ∧
      db.operations.update k (·.reconciled (db.receipt k) (clock.read 0) db.xid) =
        .ok operations ∧ db' = { db with operations } := by
  obtain ⟨u, -, h⟩ := bind_eq_ok.1 h
  split at h
  · cases h
  · next o ho =>
      split at h
      · next g hg =>
          obtain ⟨u, hhas, h⟩ := bind_eq_ok.1 h
          obtain ⟨db₁, hwrite, h⟩ := bind_eq_ok.1 h
          obtain ⟨operations, hupdate, rfl⟩ := updateOperation_ok hwrite
          cases h
          refine ⟨o, operations, ho, by rw [hg]; rfl, fun g' hg' => ?_, by rw [hg]; exact hupdate, rfl⟩
          cases hg.symm.trans hg'
          exact require_eq_ok.1 hhas
      · next hg =>
          obtain ⟨db₁, hwrite, h⟩ := bind_eq_ok.1 h
          obtain ⟨operations, hupdate, rfl⟩ := updateOperation_ok hwrite
          cases h
          refine ⟨o, operations, ho, by rw [hg]; rfl, fun g' hg' => ?_, by rw [hg]; exact hupdate, rfl⟩
          cases hg.symm.trans hg'

theorem pcProtect_ok {k : OpKey} {isProtected : Bool} (h : pcProtect db s k isProtected = .ok db') :
    ∃ operations, db.operations.update k (fun o => { o with isProtected, xmin := db.xid }) =
      .ok operations ∧ db' = { db with operations } := by
  obtain ⟨u, -, h⟩ := bind_eq_ok.1 h
  obtain ⟨u, -, h⟩ := bind_eq_ok.1 h
  exact updateOperation_ok h

theorem pcReference_ok {k : OpKey} {name : String} {present : Bool}
    (h : pcReference db s k name present = .ok db') :
    ∃ references, db' = { db with references } := by
  obtain ⟨u, -, h⟩ := bind_eq_ok.1 h
  obtain ⟨u, -, h⟩ := bind_eq_ok.1 h
  obtain ⟨u, -, h⟩ := bind_eq_ok.1 h
  split at h
  · cases h
    exact ⟨_, rfl⟩
  · split at h
    · cases h
      exact ⟨_, rfl⟩
    · obtain ⟨u, -, h⟩ := bind_eq_ok.1 h
      obtain ⟨references, -, rfl⟩ := write_eq_ok.1 h
      exact ⟨references, rfl⟩

/-- A receipt that a cleanup may remove. -/
structure Removable (db : Database) (clock : Clock) (k : OpKey) (g : GenerationRow) : Prop where
  operation : ∃ o, db.operations.find k = some o ∧ o.state = .resolved ∧ o.isProtected = false ∧
    o.resolvedTick = some g.mathTick
  receipt : db.receipt k = some g
  unreferenced : db.referencesTo k = []
  unused : ¬db.inUse clock (OpKey.conv k) g.mathTick
  passed : db.passed (OpKey.conv k) g

theorem removable_eq_some {k : OpKey} {g : GenerationRow} (h : removable db clock k = some g) :
    Removable db clock k g := by
  unfold removable at h
  split at h
  · next o g' ho hg =>
      split at h
      · next hcond =>
          cases h
          obtain ⟨hstate, hprot, hrefs, hres, hunused, hpassed⟩ := hcond
          exact ⟨⟨o, ho, hstate, hprot, hres⟩, hg, hrefs, hunused, hpassed⟩
      · cases h
  · cases h

/-- The database without an operation and its receipt. -/
def Database.cleaned (db : Database) (k : OpKey) (g : GenerationRow) : Database :=
  { db with
    payloads := db.payloads.deleteWhere fun p =>
      (p.mathEnv, p.zid) = OpKey.conv k ∧ p.mathTick = g.mathTick
    generations := db.generations.deleteWhere fun g => (g.mathEnv, g.zid, g.operationId) = k
    operations := db.operations.delete k }

theorem pcCleanup_ok {k : OpKey} {r : Bool} (h : pcCleanup db s clock k = .ok (r, db')) :
    (r = false ∧ db' = db) ∨ ∃ g, r = true ∧ Removable db clock k g ∧ db' = db.cleaned k g := by
  obtain ⟨u, -, h⟩ := bind_eq_ok.1 h
  split at h
  · cases h
    exact .inl ⟨rfl, rfl⟩
  · next g hg =>
      cases h
      exact .inr ⟨g, rfl, removable_eq_some hg, rfl⟩

/-! ## Transitions -/

theorem retick_ok (h : retick db k tick cursor = .ok db') (hc : db.coherent k) :
    ∃ ticks main bidtopid ptptstats, Moved db k tick ticks main bidtopid ptptstats ∧
      db' = { db with ticks, main, bidtopid, ptptstats } := by
  obtain ⟨t, ht, ⟨m, hm, -⟩, ⟨p, hp, -⟩, q, hq, -⟩ := hc
  obtain ⟨db₁, h₁, h⟩ := bind_eq_ok.1 h
  obtain ⟨ticks, hticks, rfl⟩ := write_eq_ok.1 h₁
  obtain ⟨db₂, h₂, h⟩ := bind_eq_ok.1 h
  obtain ⟨bidtopid, hbid, rfl⟩ := write_eq_ok.1 h₂
  obtain ⟨db₃, h₃, h⟩ := bind_eq_ok.1 h
  obtain ⟨ptptstats, hptpt, rfl⟩ := write_eq_ok.1 h₃
  obtain ⟨main, hmain, rfl⟩ := write_eq_ok.1 h
  refine ⟨ticks, main, bidtopid, ptptstats, ?_, rfl⟩
  constructor
  · intro k'
    rw [Table.map_find_update (a := tick) hticks (fun _ => rfl) fun _ => rfl, ht]
    rfl
  · intro k'
    rw [Table.map_find_update (a := tick) hmain (fun _ => rfl) fun _ => rfl, hm]
    rfl
  · intro k'
    rw [Table.map_find_update (a := tick) hbid (fun _ => rfl) fun _ => rfl, hp]
    rfl
  · intro k'
    rw [Table.map_find_update (a := tick) hptpt (fun _ => rfl) fun _ => rfl, hq]
    rfl

/-- No call changes what the operators have set up. -/
structure SameSetup (db db' : Database) : Prop where
  conversations : db'.conversations = db.conversations
  roles : db'.roles = db.roles
  namespaces : db'.namespaces = db.namespaces
  principals : db'.principals = db.principals
  budgets : db'.budgets = db.budgets

/-- The tables after a new transition: the source is withdrawn and the destination is enabled, neither
lease has a dispatch, and the floor of the destination is at the tick of the transition. -/
structure NewTransition (db : Database) (a : TransitionArgs) (p : PrincipalRow)
    (profile : NamespaceRow) (after : Database) : Prop where
  profiled : db.namespaces.find a.env = some profile
  fresh : db.transitions.find (a.env, a.transition) = none
  authority : ∀ k, after.enabled k =
    if k = a.to then true else if k = a.from then false else db.enabled k
  leases : ∀ k, k = a.from ∨ k = a.to → ∀ l, after.leases.find k = some l → l.dispatch = none
  epochs : ∀ k l, db.leases.find k = some l → ∃ l', after.leases.find k = some l' ∧
    l'.ownerEpoch = l.ownerEpoch
  others : ∀ k, k ≠ a.from → k ≠ a.to → after.leases.find k = db.leases.find k
  floors : ∀ k, after.floors.find k = if k = a.to then
    some ⟨a.env, a.zid, profile.floorTick (baseTick db a), db.cachingTick + 1⟩ else db.floors.find k
  math : (profile.resultTick (baseTick db a) = none ∧ after.ticks = db.ticks ∧
      after.main = db.main ∧ after.bidtopid = db.bidtopid ∧ after.ptptstats = db.ptptstats) ∨
    ∃ tick, profile.resultTick (baseTick db a) = some tick ∧
      Moved db a.to tick after.ticks after.main after.bidtopid after.ptptstats
  inserted : db.transitions.insert (a.row db p profile (db.cachingTick + 1)) = .ok after.transitions
  cachingTick : after.cachingTick = db.cachingTick + 1
  generations : after.generations = db.generations
  payloads : after.payloads = db.payloads
  operations : after.operations = db.operations
  references : after.references = db.references
  setup : SameSetup db after

theorem setAuthority_ok {enabled : Bool} (h : db.setAuthority k enabled = .ok db') :
    ∃ authority, db' = { db with authority } ∧
      ∀ k', db'.enabled k' = if k' = k then enabled else db.enabled k' := by
  obtain ⟨authority, hupsert, rfl⟩ := write_eq_ok.1 h
  refine ⟨authority, rfl, fun k' => ?_⟩
  unfold Database.enabled
  rw [Table.map_find_upsert hupsert (fun _ => rfl) fun _ => rfl]
  change (if k' = k then some enabled else _).getD true = _
  split
  · rfl
  · rfl

theorem revokeLease_ok {now : Time} (h : db.revokeLease k now = .ok db') :
    ∃ leases, db' = { db with leases } ∧ ∀ k', leases.find k' =
      if k' = k then (db.leases.find k).map fun l => { l with expiresAt := now, dispatch := none }
      else db.leases.find k' := updateLease_ok h fun _ => rfl

/-- Both leases lose their dispatches. -/
theorem revoke_leases {k₁ k₂ : ConvKey} (t₁ t₂ : Time) {leases : Table LeaseRow}
    (h : ∀ k', leases.find k' =
      if k' = k₂ then
        (if k₂ = k₁ then (db.leases.find k₁).map fun l => { l with expiresAt := t₁, dispatch := none }
          else db.leases.find k₂).map fun l => { l with expiresAt := t₂, dispatch := none }
      else if k' = k₁ then
        (db.leases.find k₁).map fun l => { l with expiresAt := t₁, dispatch := none }
      else db.leases.find k') :
    (∀ k, k = k₁ ∨ k = k₂ → ∀ l, leases.find k = some l → l.dispatch = none) ∧
      (∀ k l, db.leases.find k = some l → ∃ l', leases.find k = some l' ∧
        l'.ownerEpoch = l.ownerEpoch) ∧
      ∀ k, k ≠ k₁ → k ≠ k₂ → leases.find k = db.leases.find k := by
  refine ⟨fun k hk l hl => ?_, fun k l hl => ?_, fun k h₁ h₂ => ?_⟩
  · rw [h] at hl
    split at hl
    · obtain ⟨l', -, rfl⟩ := Option.map_eq_some_iff.1 hl
      rfl
    · next hne =>
        rw [if_pos (hk.resolve_right hne)] at hl
        obtain ⟨l', -, rfl⟩ := Option.map_eq_some_iff.1 hl
        rfl
  · rw [h]
    by_cases h₂ : k = k₂
    · subst h₂
      by_cases h₁ : k = k₁
      · subst h₁
        simp [hl]
      · simp [h₁, hl]
    · by_cases h₁ : k = k₁
      · subst h₁
        simp [h₂, hl]
      · simp [h₁, h₂, hl]
  · rw [h, if_neg h₂, if_neg h₁]

/-- The authority and the leases after a withdrawal. -/
theorem withdraw_ok (h : withdraw db clock a = .ok (cursor, db')) :
    cursor = db.cachingTick + 1 ∧ ∃ authority leases,
      db' = { db with authority, leases, cachingTick := cursor } ∧
      (∀ k, db'.enabled k = if k = a.to then true else if k = a.from then false else db.enabled k) ∧
      (∀ k, k = a.from ∨ k = a.to → ∀ l, leases.find k = some l → l.dispatch = none) ∧
      (∀ k l, db.leases.find k = some l → ∃ l', leases.find k = some l' ∧
        l'.ownerEpoch = l.ownerEpoch) ∧
      ∀ k, k ≠ a.from → k ≠ a.to → leases.find k = db.leases.find k := by
  obtain ⟨db₁, h₁, h⟩ := bind_eq_ok.1 h
  obtain ⟨authority₁, rfl, hauth₁⟩ := setAuthority_ok h₁
  obtain ⟨db₂, h₂, h⟩ := bind_eq_ok.1 h
  obtain ⟨authority, rfl, hauth⟩ := setAuthority_ok h₂
  obtain ⟨⟨n, db₃⟩, h₃, h⟩ := bind_eq_ok.1 h
  obtain ⟨rfl, -, rfl⟩ := nextval_ok h₃
  obtain ⟨db₄, h₄, h⟩ := bind_eq_ok.1 h
  obtain ⟨leases₁, rfl, hleases₁⟩ := revokeLease_ok h₄
  obtain ⟨db₅, h₅, h⟩ := bind_eq_ok.1 h
  obtain ⟨leases, rfl, hleases⟩ := revokeLease_ok h₅
  cases h
  refine ⟨rfl, authority, leases, rfl, fun k => ?_, revoke_leases (clock.read 0) (clock.read 1)
    fun k' => ?_⟩
  · rw [← hauth₁ k]
    exact hauth k
  · have h' := hleases k'
    simp only [hleases₁] at h'
    exact h'

theorem reticked_ok {tick : Option ℤ}
    (h : reticked db k tick cursor = .ok db') (hc : tick ≠ none → db.coherent k) :
    ∃ ticks main bidtopid ptptstats,
      db' = { db with ticks, main, bidtopid, ptptstats } ∧
      ((tick = none ∧ ticks = db.ticks ∧ main = db.main ∧ bidtopid = db.bidtopid ∧
        ptptstats = db.ptptstats) ∨
      ∃ n, tick = some n ∧ Moved db k n ticks main bidtopid ptptstats) := by
  cases tick with
  | none =>
    cases h
    exact ⟨_, _, _, _, rfl, .inl ⟨rfl, rfl, rfl, rfl, rfl⟩⟩
  | some n =>
    obtain ⟨ticks, main, bidtopid, ptptstats, hmoved, rfl⟩ := retick_ok h (hc (by simp))
    exact ⟨ticks, main, bidtopid, ptptstats, rfl, .inr ⟨n, rfl, hmoved⟩⟩

theorem raiseFloor_ok (h : raiseFloor db k tick cursor = .ok db') :
    ∃ floors, db' = { db with floors } ∧ ∀ k', floors.find k' =
      if k' = k then some ⟨k.1, k.2, tick, cursor⟩ else db.floors.find k' := by
  obtain ⟨floors, hfloors, rfl⟩ := write_eq_ok.1 h
  refine ⟨floors, rfl, fun k' => ?_⟩
  rw [Table.find_upsert hfloors fun _ => rfl]
  refine if_congr Iff.rfl (congrArg some ?_) rfl
  cases hf : db.floors.find k with
  | none => rfl
  | some f =>
    have hkey : (f.mathEnv, f.zid) = k := (Table.find_eq_some.1 hf).2
    subst hkey
    rfl

theorem commitTransition_ok {p : PrincipalRow} {profile : NamespaceRow}
    (hprofile : db.namespaces.find a.env = some profile)
    (hfresh : db.transitions.find (a.env, a.transition) = none)
    (hc : profile.writerKind = .legacy → db.coherent a.to)
    (h : commitTransition db clock a p profile = .ok (cursor, db')) :
    cursor = db.cachingTick + 1 ∧ NewTransition db a p profile db' := by
  obtain ⟨⟨n, db₁⟩, h₁, h⟩ := bind_eq_ok.1 h
  obtain ⟨rfl, authority, leases, rfl, hauth, hnone, hepochs, hothers⟩ := withdraw_ok h₁
  obtain ⟨db₂, h₂, h⟩ := bind_eq_ok.1 h
  have hcoherent : profile.resultTick (baseTick db a) ≠ none → db.coherent a.to := by
    intro hne
    apply hc
    unfold NamespaceRow.resultTick at hne
    split at hne
    · assumption
    · exact absurd rfl hne
  obtain ⟨ticks, main, bidtopid, ptptstats, rfl, hmath⟩ := reticked_ok h₂ hcoherent
  obtain ⟨db₃, h₃, h⟩ := bind_eq_ok.1 h
  obtain ⟨floors, rfl, hfloors⟩ := raiseFloor_ok h₃
  obtain ⟨db₄, h₄, h⟩ := bind_eq_ok.1 h
  obtain ⟨transitions, htransitions, rfl⟩ := write_eq_ok.1 h₄
  cases h
  refine ⟨rfl, hprofile, hfresh, hauth, hnone, hepochs, hothers, hfloors, ?_,
    htransitions, rfl, rfl, rfl, rfl, rfl, ⟨rfl, rfl, rfl, rfl, rfl⟩⟩
  rcases hmath with hmath | ⟨tick, htick, hmoved⟩
  · exact .inl hmath
  · exact .inr ⟨tick, htick, hmoved.ticks, hmoved.main, hmoved.bidtopid, hmoved.ptptstats⟩

/-- The caller may make the transition. -/
structure MayTransition (db : Database) (s : Session) (a : TransitionArgs) (p : PrincipalRow) :
    Prop where
  allowed : namespaceAllowed db s a.env
  principal : db.principals.rows.find? (fun p => p.principalName = s.user) = some p
  capable : p.canTransition = true
  valid : a.valid
  source : (db.namespaces.find a.source).isSome
  conversation : a.zid ∈ db.conversations

theorem MayTransition.name {s : Session} {p : PrincipalRow} (h : MayTransition db s a p) :
    p.principalName = s.user := by
  have hname := List.find?_some h.principal
  exact of_decide_eq_true hname

/-- A call finds the receipt of a transition, or makes a new one. -/
theorem pcTransition_ok {r : Transitioned} (h : pcTransition db s clock a = .ok (r, db')) :
    ∃ p, MayTransition db s a p ∧
      ((∃ t, db.transitions.find (a.env, a.transition) = some t ∧ t.isFor a p ∧ db' = db ∧
        r = ⟨.alreadyCommitted, t.floorTick, t.resultTick, t.cachingTick⟩) ∨
      ∃ profile, r = profile.transitioned (baseTick db a) (db.cachingTick + 1) ∧
        NewTransition db a p profile db') := by
  obtain ⟨u, hns, h⟩ := bind_eq_ok.1 h
  split at h
  · cases h
  · next p hp =>
      obtain ⟨u, hcan, h⟩ := bind_eq_ok.1 h
      obtain ⟨u, hvalid, h⟩ := bind_eq_ok.1 h
      obtain ⟨u, hsource, h⟩ := bind_eq_ok.1 h
      obtain ⟨u, hconv, h⟩ := bind_eq_ok.1 h
      refine ⟨p, ⟨assertNamespace_eq_ok.1 hns, hp, require_eq_ok.1 hcan, require_eq_ok.1 hvalid,
        require_eq_ok.1 hsource, require_eq_ok.1 hconv⟩, ?_⟩
      split at h
      · next t ht =>
          obtain ⟨u, hfor, h⟩ := bind_eq_ok.1 h
          cases h
          exact .inl ⟨t, ht, require_eq_ok.1 hfor, rfl, rfl⟩
      · next ht =>
          unfold transitionNew at h
          split at h
          · cases h
          · next profile hprofile =>
              obtain ⟨u, -, h⟩ := bind_eq_ok.1 h
              obtain ⟨u, -, h⟩ := bind_eq_ok.1 h
              obtain ⟨u, hc, h⟩ := bind_eq_ok.1 h
              obtain ⟨⟨cursor, db₁⟩, hcommit, h⟩ := bind_eq_ok.1 h
              cases h
              obtain ⟨rfl, hnew⟩ := commitTransition_ok hprofile ht (require_eq_ok.1 hc) hcommit
              exact .inr ⟨profile, rfl, hnew⟩

/-- A transition that has its receipt is answered from it. -/
theorem pcTransition_repeat {p : PrincipalRow} {t : TransitionRow}
    (h : MayTransition db s a p) (ht : db.transitions.find (a.env, a.transition) = some t)
    (hfor : t.isFor a p) : pcTransition db s clock a =
      .ok (⟨.alreadyCommitted, t.floorTick, t.resultTick, t.cachingTick⟩, db) := by
  unfold pcTransition
  refine bind_eq_ok.2 ⟨(), assertNamespace_eq_ok.2 h.allowed, ?_⟩
  rw [h.principal]
  refine bind_eq_ok.2 ⟨(), require_eq_ok.2 h.capable, bind_eq_ok.2 ⟨(), require_eq_ok.2 h.valid,
    bind_eq_ok.2 ⟨(), require_eq_ok.2 h.source, bind_eq_ok.2 ⟨(), require_eq_ok.2 h.conversation,
      ?_⟩⟩⟩⟩
  rw [ht]
  exact bind_eq_ok.2 ⟨(), require_eq_ok.2 hfor, rfl⟩

end Polis.Coordinator
