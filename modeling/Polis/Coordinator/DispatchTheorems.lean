import Polis.Coordinator.Bridge
import Polis.Coordinator.ReadbackTheorems

/-!
# Dispatch outcomes

Whatever the process does and replies, the outcome of a dispatch rests on the readback: a commit is reported
only with a verified receipt, and a definite refusal only without one. The operation stays admitted and
charged until a cleanup, and a receipt that comes later is found by a later pass.
-/

namespace Polis.Coordinator

open Json List Option
open Queue (Time Clock)

variable {b : Builtins} {w : Wire} {db₀ db db' : Database} {e : Event} {s : Session} {k : OpKey}
variable {d : Dispatch}
variable {receipt : Except BridgeError (Option ℤ)} {r : Except BridgeError Publication}

/-! ## The admission -/

/-- An admitted operation is in the table, for the dispatch of its lease. -/
theorem pcAdmit_operation {clock : Clock} {a : AdmitArgs} {r : Admitted}
    (h : pcAdmit db s clock a = .ok (r, db')) :
    ∃ lease c o, db.leases.find a.conv = some lease ∧ lease.dispatch = some c ∧
      db'.operations.find a.op = some o ∧ o.admittedFor a c := by
  rcases pcAdmit_ok h with ⟨rfl, rfl⟩ | ⟨c, operations, rfl, hnew, rfl⟩
  · obtain ⟨u, -, h⟩ := bind_eq_ok.1 h
    obtain ⟨u, -, h⟩ := bind_eq_ok.1 h
    obtain ⟨u, -, h⟩ := bind_eq_ok.1 h
    obtain ⟨⟨lease, c⟩, hlease, h⟩ := bind_eq_ok.1 h
    obtain ⟨hl, -, hc, -⟩ := admissionLease_ok hlease
    dsimp only at h
    split at h
    · cases h
    · split at h
      · next o ho =>
          obtain ⟨u, hfor, h⟩ := bind_eq_ok.1 h
          exact ⟨lease, c, o, hl, hc, ho, require_eq_ok.1 hfor⟩
      · obtain ⟨db₁, -, h⟩ := bind_eq_ok.1 h
        cases h
  · obtain ⟨lease, hl, -, hc⟩ := hnew.dispatched
    refine ⟨lease, c, a.row c db.xid, hl, hc, ?_, rfl, rfl, rfl, rfl, rfl, rfl, rfl⟩
    exact (Table.find_insert hnew.inserted).trans (if_pos rfl)

/-- The transaction of the admission changes nothing unless it admits the operation. -/
theorem Dispatch.begin_ok {clock clock' : Clock} {r : Begun}
    (h : d.begin b db s clock clock' = .ok (r, db')) :
    (r ≠ .admitted ∧ db' = db) ∨
      r = .admitted ∧ (Reached b db → Reached b db') ∧
        ∃ o, db'.operations.find d.op = some o ∧ o.admittedFor d.admission (d.columns b) := by
  unfold Dispatch.begin at h
  split at h
  · cases h
  · cases h
    exact .inl ⟨by rintro ⟨⟩, rfl⟩
  · next armed hlease =>
      split at h
      · next r' after hadmit =>
          cases h
          refine .inr ⟨rfl, fun hi => ?_, ?_⟩
          · obtain ⟨hne, -⟩ | ⟨l, leases, -, -, -, -, rfl, -⟩ := dispatchLease_ok hlease
            · exact absurd rfl hne
            · have harmed : Reached b { db with leases } :=
                ⟨hi.inv.frame rfl rfl rfl le_rfl, hi.stamped⟩
              have hstep : Step b { db with leases }
                  (.call s clock' (.admission d.admission) (.ok (.admitted r')))
                  { after with xid := db.xid + 1 } := .done (replied_eq_ok.2 ⟨r', hadmit, rfl⟩)
              exact harmed.step hstep
          · obtain ⟨lease, c, o, hl, hc, ho, hfor⟩ := pcAdmit_operation hadmit
            obtain ⟨hne, -⟩ | ⟨l, leases, -, -, -, -, rfl, hleases⟩ := dispatchLease_ok hlease
            · exact absurd rfl hne
            · have hfind := hleases d.conv
              rw [if_pos rfl] at hfind
              obtain rfl := some_inj.1 (hfind.symm.trans hl)
              obtain rfl := some_inj.1 hc
              exact ⟨o, ho, hfor⟩
      · split at h
        · cases h
          exact .inl ⟨by rintro ⟨⟩, rfl⟩
        · split at h
          · cases h
            exact .inl ⟨by rintro ⟨⟩, rfl⟩
          · cases h
      · cases h

/-- An admitted operation stays until its cleanup. -/
theorem admitted_step (h : Step b db e db') {o : OperationRow} {a : AdmitArgs} {c : DispatchColumns}
    (ho : db.operations.find k = some o) (hfor : o.admittedFor a c) (he : e.cleaned k = false) :
    ∃ o', db'.operations.find k = some o' ∧ o'.admittedFor a c := by
  rcases operation_step h ho he with ho' | ⟨now, ho'⟩ | ⟨isProtected, ho'⟩
  · exact ⟨o, ho', hfor⟩
  · exact ⟨_, ho', hfor⟩
  · exact ⟨_, ho', hfor⟩

theorem admitted_run {es : List Event} (h : Run (Step b) db es db') {o : OperationRow} {a : AdmitArgs}
    {c : DispatchColumns} (ho : db.operations.find k = some o) (hfor : o.admittedFor a c)
    (hes : es.any (Event.cleaned k) = false) :
    ∃ o', db'.operations.find k = some o' ∧ o'.admittedFor a c := by
  have hrun : es.any (Event.cleaned k) = false →
      ∃ o', db'.operations.find k = some o' ∧ o'.admittedFor a c := by
    apply h.invariant fun es d => es.any (Event.cleaned k) = false →
      ∃ o', d.operations.find k = some o' ∧ o'.admittedFor a c
    · exact fun _ => ⟨o, ho, hfor⟩
    · intro es d e d' _ hd hstep hany
      rw [any_append, any_cons, any_nil, Bool.or_false, Bool.or_eq_false_iff] at hany
      obtain ⟨o₁, ho₁, hfor₁⟩ := hd hany.1
      exact admitted_step hstep ho₁ hfor₁ hany.2
  exact hrun hes

/-! ## The outcome -/

theorem committedOr_ok {p q : Publication} (h : committedOr receipt p = .ok q) :
    (∃ t, receipt = .ok (some t) ∧ q = .committed t) ∨ (receipt = .ok none ∧ q = p) := by
  unfold committedOr at h
  cases receipt with
  | error e => cases h
  | ok tick =>
    cases h
    cases tick with
    | none => exact .inr ⟨rfl, rfl⟩
    | some t => exact .inl ⟨t, rfl, rfl⟩

theorem unanswered_ok {publishing : Bool} {result : Except BridgeError BridgeReply}
    {q : Publication} (h : receipt.bind (unanswered publishing result) = .ok q) :
    ∃ t, receipt = .ok (some t) ∧ q = .committed t := by
  obtain ⟨tick, rfl, h⟩ := bind_eq_ok.1 h
  cases tick with
  | some t =>
    cases h
    exact ⟨t, rfl, rfl⟩
  | none =>
    unfold unanswered at h
    cases result with
    | error | ok => cases h

/-- An outcome that is not an error is the readback's. -/
theorem conclude_ok {publishing : Bool} {result : Except BridgeError BridgeReply}
    {q : Publication} (h : conclude publishing result receipt = .ok q) :
    (∃ t, receipt = .ok (some t) ∧ q = .committed t) ∨
      (receipt = .ok none ∧ ∀ t, q ≠ .committed t) := by
  unfold conclude at h
  split at h
  · exact .inl (unanswered_ok h)
  · split at h
    · cases h
    · split at h
      · rcases committedOr_ok h with hcommitted | ⟨hnone, rfl⟩
        · exact .inl hcommitted
        · exact .inr ⟨hnone, fun t h => nomatch h⟩
      · split at h
        · rcases committedOr_ok h with hcommitted | ⟨hnone, rfl⟩
          · exact .inl hcommitted
          · exact .inr ⟨hnone, fun t h => nomatch h⟩
        · exact .inl (unanswered_ok h)

/-- A readback is one reconciliation, or nothing happens. -/
theorem Readback.run (h : Readback b w s k db receipt db') :
    ∃ es, Run (Step b) db es db' ∧ ∀ k', es.any (Event.cleaned k') = false := by
  cases h with
  | answered h | lost h => exact reconcileOne_run h
  | failed => exact ⟨[], .nil, fun _ => rfl⟩

/-- The operation is resolved at the tick of its receipt, which is recorded for it and verifies. -/
structure Certified (b : Builtins) (w : Wire) (db : Database) (k : OpKey) (tick : ℤ) : Prop where
  operation : ∃ o g, db.operations.find k = some o ∧ o.state = .resolved ∧
    o.resolvedTick = some tick ∧ db.receipt k = some g ∧ g.mathTick = tick ∧ o.recordedIn b g ∧
    db.verifies b w g

/-- A readback with a tick certifies it. -/
theorem reconcileOne_certified {clock : Clock} {tick : ℤ}
    (h : reconcileOne b w db s clock k = .ok (some tick, db')) : Certified b w db' k tick := by
  rcases reconcileOne_ok h with ⟨hnone, -⟩ | ⟨hstep, htick, hres⟩
  · cases hnone
  · obtain ⟨g, hg, hgt⟩ := map_eq_some_iff.1 htick.symm
    obtain ⟨hv, o, ho, hstate, hresolved, hrec⟩ := hres g hg
    obtain ⟨hg', hv'⟩ := verified_step hstep hg hv rfl
    exact ⟨o, g, ho, hstate, hgt ▸ hresolved, hg', hgt, hrec, hv'⟩

/-- A readback without a tick leaves no receipt that verifies. -/
theorem reconcileOne_unverified (hi : Reached b db) {clock : Clock}
    (h : reconcileOne b w db s clock k = .ok (none, db')) {g : GenerationRow}
    (hg : db'.receipt k = some g) : ¬db'.verifies b w g := by
  rcases reconcileOne_ok h with ⟨-, hdb⟩ | ⟨hstep, htick, -⟩
  · subst hdb
    intro hv
    cases reconcileOne_verified hi.inv hi.stamped hg hv h
  · cases hstep with
    | done hcall =>
      obtain ⟨resolved, hr, -⟩ := replied_eq_ok.1 hcall
      obtain ⟨o, operations, -, -, -, -, rfl⟩ := pcReconcile_ok hr
      have hsame : db.receipt k = some g := hg
      rw [hsame] at htick
      cases htick

/-- An operation that has its receipt is resolved at its tick, or every pass sees it. -/
theorem resolved_or_pending (hi : Reached b db) {g : GenerationRow} (hg : db.receipt k = some g) :
    ∃ o, db.operations.find k = some o ∧
      ((o.state = .resolved ∧ o.resolvedTick = some g.mathTick) ∨
        ∀ clock, db.isPending clock k.1 o) := by
  obtain ⟨o, ho, -⟩ := hi.inv.recorded hi.stamped hg
  obtain ⟨hmem, hkey⟩ := Table.find_eq_some.1 ho
  refine ⟨o, ho, ?_⟩
  obtain rfl : o.key = k := hkey
  by_cases hstate : o.state = .resolved
  · obtain ⟨tick, hres⟩ := hi.inv.resolved_receipt hmem hstate
    obtain ⟨g', hg', rfl, -⟩ := hres.receipt
    obtain rfl := some_inj.1 (hg.symm.trans hg')
    exact .inl ⟨hstate, hres.resolvedTick⟩
  · exact .inr fun clock => ⟨rfl, hstate, .inr (by rw [hg]; rfl)⟩

/-- What a dispatch has come to: nothing, or an admission, the calls of others and a readback. -/
theorem Dispatches.cases_ok {mid : List Event}
    (hi : Reached b db) (h : Dispatches b w d s db mid r db') :
    (mid = [] ∧ db' = db ∧ ∀ t, r ≠ .ok (.committed t)) ∨
      ∃ db₁ db₂, (∃ o, db₁.operations.find d.op = some o ∧
          o.admittedFor d.admission (d.columns b)) ∧
        Reached b db₁ ∧ Run (Step b) db₁ mid db₂ ∧
        ((db' = db₂ ∧ ∃ e, r = .error e) ∨ ∃ publishing result receipt,
          Readback b w s d.op db₂ receipt db' ∧ r = conclude publishing result receipt) := by
  cases h with
  | failed => exact .inl ⟨rfl, rfl, fun t h => nomatch h⟩
  | conflict _ hbegin | refused _ hbegin =>
    rcases Dispatch.begin_ok hbegin with ⟨-, rfl⟩ | ⟨hadmitted, -⟩
    · exact .inl ⟨rfl, rfl, fun t h => nomatch h⟩
    · cases hadmitted
  | unlaunched _ hbegin =>
    rcases Dispatch.begin_ok hbegin with ⟨hne, -⟩ | ⟨-, hreached, hop⟩
    · exact absurd rfl hne
    · exact .inr ⟨_, _, hop, hreached hi, .nil, .inl ⟨rfl, _, rfl⟩⟩
  | concluded _ hbegin hrun hread =>
    rcases Dispatch.begin_ok hbegin with ⟨hne, -⟩ | ⟨-, hreached, hop⟩
    · exact absurd rfl hne
    · exact .inr ⟨_, _, hop, hreached hi, hrun, .inr ⟨_, _, _, hread, rfl⟩⟩

/-- What a dispatch leaves is reached, whatever it has come to. -/
theorem Dispatches.reached {mid : List Event}
    (hi : Reached b db) (h : Dispatches b w d s db mid r db') : Reached b db' := by
  rcases h.cases_ok hi with ⟨-, rfl, -⟩ | ⟨db₁, db₂, -, hi₁, hrun, ⟨rfl, -⟩ | ⟨_, _, _, hread, -⟩⟩
  · exact hi
  · exact hi₁.run hrun
  · obtain ⟨es, hes, -⟩ := hread.run
    exact (hi₁.run hrun).run hes

/-- For every behaviour of the process, of the other callers and of the database, a dispatch reports a
commit only with a verified receipt of its operation, and a conflict or a refusal only where it has read
back no receipt that verifies or has admitted nothing; an operation that it has admitted stays charged
until its cleanup; and an operation with a receipt is resolved at its tick or is pending, and then every
pass that reaches it resolves it if the receipt verifies. -/
theorem dispatch_truthful {d : Dispatch} {es mid : List Event} {r : Except BridgeError Publication}
    (h0 : Installed db₀) (h : Run (Step b) db₀ es db) (hd : Dispatches b w d s db mid r db') :
    (∀ t, r = .ok (.committed t) → Certified b w db' d.op t) ∧
    (r = .ok .conflict ∨ (∃ state, r = .ok (.refused state)) →
      (mid = [] ∧ db' = db) ∨ ∀ g, db'.receipt d.op = some g → ¬db'.verifies b w g) ∧
    ((mid = [] ∧ db' = db) ∨ (mid.any (Event.cleaned d.op) = false →
      ∃ o ∈ db'.operationsOf d.env, o.key = d.op ∧ o.admittedFor d.admission (d.columns b))) ∧
    ∀ post db₁ g, Run (Step b) db' post db₁ → db₁.receipt d.op = some g →
      (∃ o, db₁.operations.find d.op = some o ∧
        ((o.state = .resolved ∧ o.resolvedTick = some g.mathTick) ∨
          ∀ clock, db₁.isPending clock d.env o)) ∧
      (db₁.verifies b w g →
        (∀ s' clock, namespaceAllowed db₁ s' d.env →
          ∃ db₂, reconcileOne b w db₁ s' clock d.op = .ok (some g.mathTick, db₂)) ∧
        ∀ s' ks es' db₂, Pass b w s' db₁ ks es' db₂ → d.op ∈ ks →
          es'.any (Event.cleaned d.op) = false → ∃ o, db₂.operations.find d.op = some o ∧
            o.state = .resolved ∧ o.resolvedTick = some g.mathTick) := by
  have hi : Reached b db := (Reached.installed h0).run h
  have hi' := hd.reached hi
  refine ⟨?_, ?_, ?_, fun post db₁ g hpost hg => ?_⟩
  · rintro t rfl
    rcases hd.cases_ok hi with ⟨-, -, hne⟩ | ⟨db₁, db₂, -, -, -, ⟨-, e, he⟩ | ⟨p, q, receipt, hread, hr⟩⟩
    · exact absurd rfl (hne t)
    · cases he
    · rcases conclude_ok hr.symm with ⟨t', rfl, ht'⟩ | ⟨-, hne⟩
      · cases ht'
        cases hread with
        | answered hone => exact reconcileOne_certified hone
      · exact absurd rfl (hne t)
  · intro hrefused
    rcases hd.cases_ok hi with ⟨hmid, hdb, -⟩ | ⟨db₁, db₂, -, hi₁, hrun, ⟨-, e, rfl⟩ | ⟨p, q, receipt, hread, rfl⟩⟩
    · exact .inl ⟨hmid, hdb⟩
    · rcases hrefused with h | ⟨state, h⟩
      · cases h
      · cases h
    · right
      have hnone : receipt = .ok none := by
        rcases hrefused with h | ⟨state, h⟩
        · rcases conclude_ok h with ⟨t, -, ht⟩ | ⟨hnone, -⟩
          · cases ht
          · exact hnone
        · rcases conclude_ok h with ⟨t, -, ht⟩ | ⟨hnone, -⟩
          · cases ht
          · exact hnone
      subst hnone
      cases hread with
      | answered hone => exact fun g hg => reconcileOne_unverified (hi₁.run hrun) hone hg
  · rcases hd.cases_ok hi with ⟨hmid, hdb, -⟩ | ⟨db₁, db₂, ⟨o, ho, hfor⟩, -, hrun, hlast⟩
    · exact .inl ⟨hmid, hdb⟩
    · refine .inr fun hclean => ?_
      obtain ⟨o₂, ho₂, hfor₂⟩ := admitted_run hrun ho hfor hclean
      have hop : ∃ o', db'.operations.find d.op = some o' ∧
          o'.admittedFor d.admission (d.columns b) := by
        rcases hlast with ⟨rfl, -⟩ | ⟨_, _, _, hread, -⟩
        · exact ⟨o₂, ho₂, hfor₂⟩
        · obtain ⟨es', hes', hnone⟩ := hread.run
          exact admitted_run hes' ho₂ hfor₂ (hnone _)
      obtain ⟨o', ho', hfor'⟩ := hop
      obtain ⟨hmem, hkey⟩ := Table.find_eq_some.1 ho'
      refine ⟨o', mem_filter.2 ⟨hmem, decide_eq_true ?_⟩, hkey, hfor'⟩
      exact (Prod.mk.inj hkey).1
  · have hi₁ := hi'.run hpost
    refine ⟨resolved_or_pending hi₁ hg, fun hv => ⟨fun s' clock hns => ?_, ?_⟩⟩
    · exact exists_reconcileOne hi₁.inv hi₁.stamped hns hg hv clock
    · exact fun s' ks es' db₂ hp hk hes => hp.resolves hi₁ hk hg hv hes

/-! ## Samples -/

private def numeral (whole fraction : Text) (exponent : Option Exponent)
    (h : Digits whole ∧ Digits fraction ∧ whole ≠ []) : Json Literal :=
  .number ⟨false, whole, fraction, exponent, h.2.2, h.1, h.2.1⟩

/-- A payload with an integer that no `u64` holds. -/
private def widePayload : Bytes :=
  utf8 "\x7b\"zid\":1,\"lastVoteTimestamp\":5,\"n\":18446744073709551617\x7d"

private def wideSha256 (bytes : Bytes) : String :=
  if bytes = widePayload then "ed8e9003ffb81caf25e88d03990a590a224a9915714d0ce3ef99e379650fd13b"
  else if bytes = utf8 "\x7b\"lastVoteTimestamp\":5,\"n\":18446744073709551617,\"zid\":1\x7d" then
    "673be50e5b6e13df4e650a0a9dcd49be64d5fcc064cc1e1be3224491c621b274"
  else if bytes = utf8 "\x7b\"lastVoteTimestamp\":5,\"n\":18446744073709552000,\"zid\":1\x7d" then
    "bee4d031b2b9b9187626ccfffbd29694a53f8f79e6d0f1a95efa1c68b7a4c070"
  else sampleBuiltins.sha256 bytes

private theorem wideSha256_hex (bytes : Bytes) : Queue.isSha256 (wideSha256 bytes) = true := by
  unfold wideSha256
  split
  · decide +kernel
  · split
    · decide +kernel
    · split
      · decide +kernel
      · exact sampleBuiltins.sha256_hex bytes

/-- The database reads both payloads exactly. -/
def wideBuiltins : Builtins where
  sha256 := wideSha256
  sha256_hex := wideSha256_hex
  uniqueObject bytes := bytes = widePayload ∨ sampleBuiltins.uniqueObject bytes = true
  jsonb bytes :=
    if bytes = widePayload then
      some (.object [("n", jsonInt 18446744073709551617), ("zid", jsonInt 1),
        ("lastVoteTimestamp", jsonInt 5)])
    else sampleBuiltins.jsonb bytes
  text := sampleBuiltins.text

/-- `serde_json` reads the wide integer as the nearest `f64`. -/
def sampleWire : Wire where
  parse bytes :=
    if bytes = widePayload then
      some ⟨.object [("zid", numeral ['1'] [] none (by decide)),
        ("lastVoteTimestamp", numeral ['5'] [] none (by decide)),
        ("n", numeral ['1'] ['8', '4', '4', '6', '7', '4', '4', '0', '7', '3', '7', '0', '9', '5', '5',
          '2'] (some ⟨false, none, ['1', '9'], by decide, by decide⟩) (by decide))], by decide⟩
    else if bytes = (sampleRequest "first" none).main then
      some ⟨.object [("zid", numeral ['1'] [] none (by decide)),
        ("lastVoteTimestamp", numeral ['5'] [] none (by decide))], by decide⟩
    else none
  toWriter := quote

/-- The dispatch of a publication. -/
def sampleDispatch (operation : String) (expected : Option ℤ) : Dispatch where
  env := "prod"
  zid := 1
  owner := "owner"
  epoch := 1
  expected := expected
  checkpoint := .object []
  sourceSha256 := "44136fa355b3678a1146ad16f7e8649e94fb4fc21fe77e8310c060f61caaff8a"
  reservationBytes := 2097152
  marginMs := 1000
  credential := true
  uuid := operation
  capability := List.replicate 32 0
  fault := false

private def sampleSession : Session := ⟨"worker", true⟩

private def sampleClock : Clock := ⟨0, fun _ => 0⟩

/-- The lease is taken, by calls. -/
def sampleLeased : Database :=
  (history wideBuiltins sampleDatabase (sampleCalls [.acquire ("prod", 1) "owner" 60])).2

/-- The lines of a process that announces its publication and then replies. -/
def sampleTurns (reply : BridgeReply) : List Turn :=
  [⟨false, none, .line (some { protocol := some protocol, phase := some "publication" }) true⟩,
    ⟨false, none, .line (some { reply with protocol := some protocol }) true⟩]

/-- A dispatch whose process makes one publication and then replies: its outcome and the database. -/
def sampleOutcome (d : Dispatch) (a : PublishArgs) (reply : BridgeReply) (db : Database) :
    Option (Except BridgeError Publication × Database) :=
  match d.begin wideBuiltins db sampleSession sampleClock sampleClock with
  | .ok (.admitted, db₁) =>
    match reconcileOne wideBuiltins sampleWire (history wideBuiltins db₁ (sampleCalls [.publish a])).2
        sampleSession sampleClock d.op with
    | .ok (tick, db₂) =>
      some (conclude (replies d.fault false (sampleTurns reply)).1
        (replies d.fault false (sampleTurns reply)).2 (.ok tick), db₂)
    | .error _ => none
  | _ => none

theorem sampleOutcome_dispatches {a : PublishArgs} {reply : BridgeReply}
    (hprepare : d.prepare = .ok ()) (h : sampleOutcome d a reply db = some (r, db')) :
    ∃ mid, Dispatches wideBuiltins sampleWire d sampleSession db mid r db' := by
  unfold sampleOutcome at h
  split at h
  · next db₁ hbegin =>
      split at h
      · next tick db₂ hone =>
          cases h
          exact ⟨_, .concluded hprepare hbegin (history_run wideBuiltins db₁ _) (.answered hone)⟩
      · cases h
  · cases h

def wideRequest : PublishArgs :=
  { sampleRequest "first" none with main := widePayload, bidtopid := widePayload,
                                    ptptstats := widePayload }

/-- What a dispatch shows: its outcome, the tick of its receipt and the state of its operation. -/
def sampleShown (p : Except BridgeError Publication × Database) :
    Except BridgeError Publication × Option ℤ × Option OperationState :=
  (p.1, (p.2.receipt ("prod", 1, "first")).map (·.mathTick),
    (p.2.operations.find ("prod", 1, "first")).map (·.state))

/-- A process that commits and acknowledges it is reported as committed. -/
theorem dispatch_truthful_committed : ∃ db', Certified wideBuiltins sampleWire db' ("prod", 1, "first") 0 := by
  have h : (sampleOutcome (sampleDispatch "first" none) (sampleRequest "first" none)
      { outcome := some "committed", publishRetries := some 0 } sampleLeased).map (·.1) =
      some (.ok (.committed 0)) := by
    decide +kernel
  obtain ⟨⟨r, db'⟩, hout, rfl⟩ := map_eq_some_iff.1 h
  obtain ⟨mid, hd⟩ := sampleOutcome_dispatches (by decide +kernel) hout
  exact ⟨db', (dispatch_truthful sampleDatabase_installed
    (history_run wideBuiltins sampleDatabase _) hd).1 0 rfl⟩

def sampleUnbudgeted : Database :=
  (history wideBuiltins { sampleDatabase with budgets := .empty }
    (sampleCalls [.acquire ("prod", 1) "owner" 60])).2

/-- The wide payload is refused after its commit, and then a second operation commits. -/
def sampleSecond : Option Database :=
  match sampleOutcome (sampleDispatch "first" none) wideRequest { code := some "FENCED" } sampleLeased with
  | none => none
  | some (_, db) =>
    match (sampleDispatch "second" (some 0)).begin wideBuiltins db sampleSession sampleClock
        sampleClock with
    | .ok (.admitted, db₁) =>
      some (history wideBuiltins db₁ (sampleCalls [.publish (sampleRequest "second" (some 0))])).2
    | _ => none

/-- What a page of one operation shows: the page, its readback, and the two operations. -/
structure SamplePage where
  page : List OpKey
  read : Option (Option ℤ)
  first : Option ℤ
  second : Option ℤ
  state : Option OperationState
deriving DecidableEq

def samplePage (db : Database) : SamplePage where
  page := pendingPage (fun x y => decide (x < y)) db sampleClock "prod" 1
  read := (reconcileOne wideBuiltins sampleWire db sampleSession sampleClock
    ("prod", 1, "first")).toOption.map (·.1)
  first := (db.receipt ("prod", 1, "first")).map (·.mathTick)
  second := (db.receipt ("prod", 1, "second")).map (·.mathTick)
  state := (db.operations.find ("prod", 1, "second")).map (·.state)

/-- A durable receipt whose bytes the control process cannot check is reported as a refusal and stays
pending, where it keeps a page of one operation to itself; a commit is reported as an error after its
operation is resolved; and a dispatch that is not admitted leaves no operation. -/
theorem dispatch_not_truthful :
    (∃ mid db', Dispatches wideBuiltins sampleWire (sampleDispatch "first" none) sampleSession
      sampleLeased mid (.ok (.refused .fenced)) db' ∧
      (db'.receipt ("prod", 1, "first")).map (·.mathTick) = some 0 ∧
      (db'.operations.find ("prod", 1, "first")).map (·.state) = some .pending) ∧
    (∃ db, pendingPage (fun x y => decide (x < y)) db sampleClock "prod" 1 = [("prod", 1, "first")] ∧
      reconcileOne wideBuiltins sampleWire db sampleSession sampleClock ("prod", 1, "first") =
        .ok (none, db) ∧ (db.receipt ("prod", 1, "second")).map (·.mathTick) = some 1 ∧
      (db.operations.find ("prod", 1, "second")).map (·.state) = some .pending) ∧
    (∃ mid db', Dispatches wideBuiltins sampleWire (sampleDispatch "first" none) sampleSession
      sampleLeased mid (.error (.token "INVALID_PUBLICATION_RETRY_COUNT")) db' ∧
      (db'.operations.find ("prod", 1, "first")).map (·.state) = some .resolved) ∧
    ((sampleDispatch "first" none).begin wideBuiltins sampleUnbudgeted sampleSession sampleClock
        sampleClock).toOption.map (·.1) = none ∧
      (sampleUnbudgeted.operations.find ("prod", 1, "first")).isNone := by
  refine ⟨?_, ?_, ?_, by decide +kernel, by decide +kernel⟩
  · have h : (sampleOutcome (sampleDispatch "first" none) wideRequest { code := some "FENCED" }
        sampleLeased).map sampleShown = some (.ok (.refused .fenced), some 0, some .pending) := by
      decide +kernel
    obtain ⟨⟨r, db'⟩, hout, hshown⟩ := map_eq_some_iff.1 h
    simp only [sampleShown, Prod.mk.injEq] at hshown
    obtain ⟨rfl, hreceipt, hstate⟩ := hshown
    obtain ⟨mid, hd⟩ := sampleOutcome_dispatches (by decide +kernel) hout
    exact ⟨mid, db', hd, hreceipt, hstate⟩
  · have h : sampleSecond.map samplePage =
        some ⟨[("prod", 1, "first")], some none, some 0, some 1, some .pending⟩ := by
      decide +kernel
    obtain ⟨db, -, hpage⟩ := map_eq_some_iff.1 h
    simp only [samplePage, SamplePage.mk.injEq] at hpage
    obtain ⟨hpage, hread, hfirst, hsecond, hstate⟩ := hpage
    refine ⟨db, hpage, ?_, hsecond, hstate⟩
    cases hone : reconcileOne wideBuiltins sampleWire db sampleSession sampleClock
        ("prod", 1, "first") with
    | error e =>
      rw [hone] at hread
      cases hread
    | ok p =>
      obtain ⟨r, db'⟩ := p
      rw [hone] at hread
      obtain rfl : r = none := some_inj.1 hread
      rcases reconcileOne_ok hone with ⟨-, rfl⟩ | ⟨-, htick, -⟩
      · rfl
      · rw [hfirst] at htick
        cases htick
  · have h : (sampleOutcome (sampleDispatch "first" none) (sampleRequest "first" none)
        { outcome := some "committed" } sampleLeased).map sampleShown =
        some (.error (.token "INVALID_PUBLICATION_RETRY_COUNT"), some 0, some .resolved) := by
      decide +kernel
    obtain ⟨⟨r, db'⟩, hout, hshown⟩ := map_eq_some_iff.1 h
    simp only [sampleShown, Prod.mk.injEq] at hshown
    obtain ⟨rfl, -, hstate⟩ := hshown
    obtain ⟨mid, hd⟩ := sampleOutcome_dispatches (by decide +kernel) hout
    exact ⟨mid, db', hd, hstate⟩

end Polis.Coordinator
