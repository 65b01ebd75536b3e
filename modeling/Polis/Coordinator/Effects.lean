import Polis.Coordinator.Specs

/-!
# The effect of a step

Every step is of one of eight kinds. The tables that a kind does not name are as they were, so that an
invariant is proved once for each kind that writes what it speaks of.
-/

namespace Polis.Coordinator

open Queue (Time Clock)

/-! ## What an event reports -/

namespace Event

/-- The epoch that the event acquires a lease with. -/
def acquired (k : ConvKey) : Event → Option ℤ
  | .call _ _ (.acquire k' _ _) (.ok (.acquired epoch)) => if k' = k then epoch else none
  | _ => none

/-- The tick that the event commits a publication at. -/
def committed (k : ConvKey) : Event → Option ℤ
  | .call _ _ (.publish a) (.ok (.published (.committed tick _))) => if a.conv = k then some tick else none
  | _ => none

/-- The event does more than take and move leases. -/
def writes : Event → Bool
  | .call _ _ (.publish _) (.ok (.published (.committed _ _))) => true
  | .call _ _ (.admission _) (.ok (.admitted .admitted)) => true
  | .call _ _ (.reconcile _) (.ok _) => true
  | .call _ _ (.protect _ _) (.ok _) => true
  | .call _ _ (.cleanup _) (.ok (.cleaned true)) => true
  | .call _ _ (.transition _) (.ok (.transitioned r)) => r.outcome ≠ .alreadyCommitted
  | .damage => true
  | _ => false

/-- The event removes an operation and its receipt. -/
def cleaned (k : OpKey) : Event → Bool
  | .call _ _ (.cleanup k') (.ok (.cleaned true)) => k' = k
  | _ => false

end Event

/-! ## Leases -/

/-- What an event does to one lease. -/
inductive LeaseMove (k : ConvKey) : Event → Option LeaseRow → Option LeaseRow → Prop
  | kept {e : Event} {l : Option LeaseRow} : e.acquired k = none → LeaseMove k e l l
  | acquired {s : Session} {clock : Clock} {owner : String} {n : ℤ} {l : Option LeaseRow}
      {l' : LeaseRow} : l'.dispatch = none → (∀ l₀, l = some l₀ → l₀.ownerEpoch < l'.ownerEpoch) →
      LeaseMove k (.call s clock (.acquire k owner n) (.ok (.acquired (some l'.ownerEpoch)))) l (some l')
  | extended {e : Event} {l : LeaseRow} {expires : Time} : e.acquired k = none →
      LeaseMove k e (some l) (some { l with expiresAt := expires })
  | dispatched {s : Session} {clock : Clock} {owner : String} {epoch : ℤ} {d : DispatchColumns}
      {l : LeaseRow} : l.ownedBy owner epoch →
      LeaseMove k (.call s clock (.dispatch k owner epoch d) (.ok (.dispatched none))) (some l)
        (some { l with dispatch := some d })

variable {b : Builtins} {db db' : Database} {s : Session} {clock : Clock} {e : Event}

/-- Leases that one event moves at one key. -/
theorem leaseMove_of {k : ConvKey} {l' : Option LeaseRow} {leases : Table LeaseRow}
    (h : ∀ k', leases.find k' = if k' = k then l' else db.leases.find k')
    (he : ∀ k', k' ≠ k → e.acquired k' = none) (hmove : LeaseMove k e (db.leases.find k) l')
    (k' : ConvKey) :
    LeaseMove k' e (db.leases.find k') (leases.find k') := by
  rw [h]
  split
  · next hk =>
      subst hk
      exact hmove
  · next hk => exact .kept (he k' hk)

/-! ## Effects -/

/-- What one step does to the tables. -/
inductive Effect (b : Builtins) (db : Database) : Event → Database → Prop
  | quiet {e : Event} {leases : Table LeaseRow} {references : Table ReferenceRow} {cursor : ℤ} :
      e.writes = false → (∀ k, LeaseMove k e (db.leases.find k) (leases.find k)) →
      db.cachingTick ≤ cursor →
      Effect b db e { db with leases, references, cachingTick := cursor, xid := db.xid + 1 }
  | damage {ticks : Table TicksRow} : Lowered db.ticks ticks → Effect b db .damage { db with ticks }
  | admitted {s : Session} {clock : Clock} {a : AdmitArgs} {operations : Table OperationRow}
      {d : DispatchColumns} : NewAdmission db a operations d →
      Effect b db (.call s clock (.admission a) (.ok (.admitted .admitted)))
        { db with operations, xid := db.xid + 1 }
  | reconciled {s : Session} {clock : Clock} {k : OpKey} {o : OperationRow}
      {operations : Table OperationRow} : db.operations.find k = some o →
      (∀ g, db.receipt k = some g → o.hasReceipt b db g) →
      db.operations.update k (·.reconciled (db.receipt k) (clock.read 0) db.xid) = .ok operations →
      Effect b db (.call s clock (.reconcile k) (.ok (.reconciled (db.receipt k).isSome)))
        { db with operations, xid := db.xid + 1 }
  | protection {s : Session} {clock : Clock} {k : OpKey} {isProtected : Bool}
      {operations : Table OperationRow} :
      db.operations.update k (fun o => { o with isProtected, xmin := db.xid }) = .ok operations →
      Effect b db (.call s clock (.protect k isProtected) (.ok .done))
        { db with operations, xid := db.xid + 1 }
  | committed {s : Session} {clock : Clock} {a : PublishArgs} {d : PayloadData}
      {ticks : Table TicksRow} {main : Table MainRow} {bidtopid ptptstats : Table DataRow}
      {generations : Table GenerationRow} {payloads : Table PayloadRow} {floors : Table FloorRow} :
      Authorized b db s clock a d →
      Moved db a.conv (nextTick (db.currentTick a.conv)) ticks main bidtopid ptptstats →
      Recorded b db a d (nextTick (db.currentTick a.conv)) (db.cachingTick + 1) generations payloads
        floors →
      Effect b db (.call s clock (.publish a) (.ok (.published
          (.committed (nextTick (db.currentTick a.conv)) (db.cachingTick + 1)))))
        { db with ticks, main, bidtopid, ptptstats, generations, payloads, floors
                  cachingTick := db.cachingTick + 1, xid := db.xid + 1 }
  | cleaned {s : Session} {clock : Clock} {k : OpKey} {g : GenerationRow} : Removable db clock k g →
      Effect b db (.call s clock (.cleanup k) (.ok (.cleaned true)))
        { db.cleaned k g with xid := db.xid + 1 }
  | transitioned {s : Session} {clock : Clock} {a : TransitionArgs} {p : PrincipalRow}
      {profile : NamespaceRow} {after : Database} : MayTransition db s a p →
      NewTransition db a p profile after →
      Effect b db (.call s clock (.transition a) (.ok (.transitioned
          (profile.transitioned (baseTick db a) (db.cachingTick + 1)))))
        { after with xid := db.xid + 1 }

/-- A call that changes nothing. -/
theorem Effect.unchanged (h : e.writes = false) (he : ∀ k, e.acquired k = none) :
    Effect b db e { db with xid := db.xid + 1 } :=
  .quiet h (fun k => .kept (he k)) le_rfl

theorem Step.effect (h : Step b db e db') : Effect b db e db' := by
  cases h with
  | damage hticks => exact .damage hticks
  | refused _ hcursor _ =>
    exact .quiet (by simp [Event.writes]) (fun k => .kept (by simp [Event.acquired])) hcursor
  | @done db' s clock c r h =>
    cases c with
    | acquire k owner n =>
      obtain ⟨epoch, hr, rfl⟩ := replied_eq_ok.1 h
      obtain ⟨rfl, rfl⟩ | ⟨l, leases, rfl, rfl, hdispatch, hepoch, hleases⟩ := acquire_ok hr
      · exact .unchanged rfl fun k' => by simp [Event.acquired]
      · refine .quiet rfl (leaseMove_of hleases ?_ (.acquired hdispatch hepoch)) le_rfl
        intro k' hk
        exact if_neg (Ne.symm hk)
    | renew k owner epoch n =>
      obtain ⟨r, hr, rfl⟩ := replied_eq_ok.1 h
      obtain rfl | ⟨leases, expires, rfl, hleases⟩ := renew_ok hr
      · exact .unchanged rfl fun _ => rfl
      · refine .quiet rfl (leaseMove_of hleases (fun _ _ => rfl) ?_) le_rfl
        cases db.leases.find k with
        | none => exact .kept rfl
        | some l => exact .extended rfl
    | release k owner epoch =>
      obtain ⟨hr, rfl⟩ := unreplied_eq_ok.1 h
      obtain rfl | ⟨leases, expires, rfl, hleases⟩ := release_ok hr
      · exact .unchanged rfl fun _ => rfl
      · refine .quiet rfl (leaseMove_of hleases (fun _ _ => rfl) ?_) le_rfl
        cases db.leases.find k with
        | none => exact .kept rfl
        | some l => exact .extended rfl
    | dispatch k owner epoch columns =>
      obtain ⟨r, hr, rfl⟩ := replied_eq_ok.1 h
      obtain ⟨hne, rfl⟩ | ⟨l, leases, rfl, hl, howned, -, rfl, hleases⟩ := dispatchLease_ok hr
      · exact .unchanged rfl fun _ => rfl
      · exact .quiet rfl (leaseMove_of hleases (fun _ _ => rfl) (hl ▸ .dispatched howned)) le_rfl
    | admission a =>
      obtain ⟨r, hr, rfl⟩ := replied_eq_ok.1 h
      obtain ⟨rfl, rfl⟩ | ⟨d, operations, rfl, hnew, rfl⟩ := pcAdmit_ok hr
      · exact .unchanged rfl fun _ => rfl
      · exact .admitted hnew
    | publish a =>
      obtain ⟨r, hr, rfl⟩ := replied_eq_ok.1 h
      obtain ⟨g, -, rfl, rfl⟩ | ⟨-, rfl, -, rfl⟩ | ⟨d, ticks, main, bidtopid, ptptstats, generations,
        payloads, floors, hauth, rfl, hmoved, hrec, rfl⟩ := pcPublish_ok hr
      · exact .unchanged rfl fun _ => rfl
      · exact .unchanged rfl fun _ => rfl
      · exact .committed hauth hmoved hrec
    | reconcile k =>
      obtain ⟨r, hr, rfl⟩ := replied_eq_ok.1 h
      obtain ⟨o, operations, ho, rfl, hhas, hupdate, rfl⟩ := pcReconcile_ok hr
      exact .reconciled ho hhas hupdate
    | protect k isProtected =>
      obtain ⟨hr, rfl⟩ := unreplied_eq_ok.1 h
      obtain ⟨operations, hupdate, rfl⟩ := pcProtect_ok hr
      exact .protection hupdate
    | reference k name present =>
      obtain ⟨hr, rfl⟩ := unreplied_eq_ok.1 h
      obtain ⟨references, rfl⟩ := pcReference_ok hr
      exact .quiet rfl (fun _ => .kept rfl) le_rfl
    | cleanup k =>
      obtain ⟨r, hr, rfl⟩ := replied_eq_ok.1 h
      obtain ⟨rfl, rfl⟩ | ⟨g, rfl, hrem, rfl⟩ := pcCleanup_ok hr
      · exact .unchanged rfl fun _ => rfl
      · exact .cleaned hrem
    | transition a =>
      obtain ⟨r, hr, rfl⟩ := replied_eq_ok.1 h
      obtain ⟨p, hmay, ⟨t, -, -, rfl, rfl⟩ | ⟨profile, rfl, hnew⟩⟩ := pcTransition_ok hr
      · exact .unchanged rfl fun _ => rfl
      · exact .transitioned hmay hnew

/-- No step changes what the operators have set up. -/
theorem Step.setup (h : Step b db e db') : SameSetup db db' := by
  cases h.effect with
  | transitioned _ hnew =>
    exact ⟨hnew.setup.conversations, hnew.setup.roles, hnew.setup.namespaces,
      hnew.setup.principals, hnew.setup.budgets⟩
  | quiet | damage | admitted | reconciled | protection | committed | cleaned =>
    exact ⟨rfl, rfl, rfl, rfl, rfl⟩

theorem SameSetup.refl : SameSetup db db := ⟨rfl, rfl, rfl, rfl, rfl⟩

theorem SameSetup.trans {db'' : Database} (h : SameSetup db db') (h' : SameSetup db' db'') :
    SameSetup db db'' :=
  ⟨h'.conversations.trans h.conversations, h'.roles.trans h.roles,
    h'.namespaces.trans h.namespaces, h'.principals.trans h.principals, h'.budgets.trans h.budgets⟩

theorem setup_run {es : List Event} (h : Run (Step b) db es db') : SameSetup db db' :=
  h.keeps (SameSetup db) .refl fun _ _ _ hi hs => hi.trans hs.setup

theorem SameSetup.allowed {s : Session} {env : String} (h : SameSetup db db') :
    namespaceAllowed db' s env ↔ namespaceAllowed db s env := by
  unfold namespaceAllowed
  rw [h.principals, h.roles]

end Polis.Coordinator
