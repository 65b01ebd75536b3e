import Polis.Coordinator.Readback

/-!
# Readback

Over every run a receipt is its operation's, so that a readback answers with its tick exactly when its
payloads verify; and then the operation is resolved. A pass over the pending operations resolves every
operation of its page that has such a receipt.
-/

namespace Polis.Coordinator

open Json List Option
open Queue (Time Clock)

variable {b : Builtins} {w : Wire} {db db' : Database} {e : Event} {s : Session} {clock : Clock}
  {k : OpKey}
variable {es : List Event}
variable {g : GenerationRow}

/-! ## Receipts -/

/-- The checkpoint of a receipt names its operation and its epoch. -/
def Stamped (db : Database) : Prop :=
  ∀ g ∈ db.generations.rows, g.inputCheckpoint.publisherEpoch = g.publisherEpoch ∧
    g.inputCheckpoint.operationId = g.operationId

theorem Stamped.step (hi : Stamped db) (h : Step b db e db') : Stamped db' := by
  intro g hg
  cases h.effect with
  | quiet | damage | admitted | reconciled | protection => exact hi g hg
  | transitioned _ hnew => exact hi g (hnew.generations ▸ hg)
  | cleaned _ => exact hi g (Table.mem_deleteWhere.1 hg).1
  | committed _ _ hrec =>
    rw [Table.insert_rows hrec.generations] at hg
    rcases mem_append.1 hg with hg | hg
    · exact hi g hg
    · rw [mem_singleton.1 hg]
      exact ⟨rfl, rfl⟩

theorem Stamped.installed (h : Installed db) : Stamped db := by
  intro g hg
  rw [h.generations] at hg
  cases hg

/-- The receipt of an operation is recorded in full. -/
theorem Inv.recorded (hi : Inv b db) (hst : Stamped db) (hg : db.receipt k = some g) :
    ∃ o, db.operations.find k = some o ∧ o.recordedIn b g ∧ o.hasReceipt b db g := by
  obtain ⟨hmem, hop⟩ := receipt_eq_some.1 hg
  obtain ⟨o, ho, hid⟩ := hi.admitted g hmem
  obtain ⟨hepoch, hoperation⟩ := hst g hmem
  have hkey : o.key = g.op := (Table.find_eq_some.1 ho).2
  obtain ⟨henv, hrest⟩ := Prod.mk.inj hkey
  obtain ⟨hzid, hopid⟩ := Prod.mk.inj hrest
  have hthree := (hi.complete g hmem).length
  refine ⟨o, hop ▸ ho, ⟨hid, hepoch.trans hid.2.1, hoperation.trans hopid.symm⟩, ?_⟩
  refine ⟨hid.1, hid.2.1, hid.2.2.1, hid.2.2.2.1, hid.2.2.2.2, ?_⟩
  rw [henv, hzid]
  exact hthree

/-! ## Payloads -/

/-- The payloads of a receipt stay as they are until its cleanup. -/
theorem payloadsOf_step (h : Step b db e db') (hg : db.receipt k = some g)
    (he : e.cleaned k = false) :
    db'.payloadsOf g.conv g.mathTick = db.payloadsOf g.conv g.mathTick := by
  obtain ⟨hmem, hop⟩ := receipt_eq_some.1 hg
  cases h.effect with
  | quiet | damage | admitted | reconciled | protection => rfl
  | transitioned _ hnew =>
    unfold Database.payloadsOf
    rw [hnew.payloads]
  | @committed s clock a d ticks main bidtopid ptptstats generations payloads floors _ _ hrec =>
    rw [hrec.payloadsOf rfl, if_neg]
    rintro ⟨hconv, htick⟩
    -- The generation that is inserted is new at its tick.
    obtain ⟨henv, hzid⟩ := Prod.mk.inj hconv
    refine Table.find_eq_none.1 (Table.insert_fresh hrec.generations) g hmem ?_
    change (g.mathEnv, g.zid, g.mathTick) = _
    rw [henv, hzid, htick]
    rfl
  | @cleaned s clock k' g' hrem =>
    obtain ⟨hmem', hop'⟩ := receipt_eq_some.1 hrem.receipt
    unfold Database.payloadsOf
    change List.filter _ (db.payloads.rows.filter _) = _
    rw [List.filter_filter]
    refine filter_congr fun p _ => ?_
    rw [Bool.and_eq_left_iff_imp]
    intro hat
    obtain ⟨hconv, htick⟩ := of_decide_eq_true hat
    simp only [decide_not, Bool.not_eq_true', decide_eq_false_iff_not]
    rintro ⟨hconv', htick'⟩
    refine of_decide_eq_false he ?_
    rw [← hop, ← hop']
    refine congrArg GenerationRow.op (generation_ext hmem' hmem ?_ (htick'.symm.trans htick))
    rw [← hconv, hconv', ← hop']
    rfl

/-- A receipt whose payloads verify keeps them until its cleanup. -/
theorem verified_step (h : Step b db e db') (hg : db.receipt k = some g)
    (hv : db.verifies b w g) (he : e.cleaned k = false) :
    db'.receipt k = some g ∧ db'.verifies b w g := by
  have hsame : db'.payloadsOf (g.mathEnv, g.zid) g.mathTick =
      db.payloadsOf (g.mathEnv, g.zid) g.mathTick := payloadsOf_step h hg he
  refine ⟨receipt_step h hg he, ?_⟩
  unfold Database.verifies
  rw [hsame]
  exact hv

theorem verified_run (h : Run (Step b) db es db')
    (hg : db.receipt k = some g) (hv : db.verifies b w g) (hes : es.any (Event.cleaned k) = false) :
    db'.receipt k = some g ∧ db'.verifies b w g := by
  have hrun : es.any (Event.cleaned k) = false → db'.receipt k = some g ∧ db'.verifies b w g := by
    apply h.invariant fun es d =>
      es.any (Event.cleaned k) = false → d.receipt k = some g ∧ d.verifies b w g
    · exact fun _ => ⟨hg, hv⟩
    · intro es d e d' _ hd hstep hany
      rw [any_append, any_cons, any_nil, Bool.or_false, Bool.or_eq_false_iff] at hany
      obtain ⟨hg', hv'⟩ := hd hany.1
      exact verified_step hstep hg' hv' hany.2
  exact hrun hes

/-! ## One readback -/

theorem updateOperation_error {f : OperationRow → OperationRow} {error : DbError}
    (h : db.updateOperation k f = .error error) : ∃ violation, error = .constraint violation := by
  unfold Database.updateOperation write at h
  split at h
  · cases h
  · next violation _ =>
      cases h
      exact ⟨violation, rfl⟩

/-- The database finds no receipt to be another operation's. -/
theorem pcReconcile_identity (hi : Inv b db) (hst : Stamped db) : pcReconcile b db s clock k ≠
    .error (.raised "P2020" "RECEIPT_IDENTITY_CONFLICT") := by
  intro h
  rcases bind_eq_error.1 h with h | ⟨u, -, h⟩
  · have heq := (require_eq_error.1 h).2
    simp at heq
  · split at h
    · simp at h
    · next o ho =>
        split at h
        · next g hg =>
            rcases bind_eq_error.1 h with h | ⟨u, -, h⟩
            · obtain ⟨o', ho', -, hhas⟩ := hi.recorded hst hg
              obtain rfl : o = o' := some_inj.1 (ho.symm.trans ho')
              exact (require_eq_error.1 h).1 hhas
            · rcases bind_eq_error.1 h with h | ⟨db₁, -, h⟩
              · obtain ⟨violation, hviolation⟩ := updateOperation_error h
                cases hviolation
              · cases h
        · rcases bind_eq_error.1 h with h | ⟨db₁, -, h⟩
          · obtain ⟨violation, hviolation⟩ := updateOperation_error h
            cases hviolation
          · cases h

/-- An operation with its receipt can be resolved. -/
theorem pcReconcile_receipt (hi : Inv b db) (hst : Stamped db) (hns : namespaceAllowed db s k.1)
    (hg : db.receipt k = some g) (clock : Clock) :
    ∃ db', pcReconcile b db s clock k = .ok (true, db') := by
  obtain ⟨o, ho, -, hhas⟩ := hi.recorded hst hg
  obtain ⟨hmem, hop⟩ := receipt_eq_some.1 hg
  have hupdate : ∃ operations, db.operations.update k (fun o =>
      { o with state := .resolved, resolvedTick := some g.mathTick,
               reconciledAt := some (clock.read 0), xmin := db.xid }) = .ok operations := by
    refine Table.exists_update (fun _ => rfl) fun r hr => ⟨rfl, ?_⟩
    obtain ⟨hid, howner, hepoch, hexpected, hcap, hcheckpoint, hsource, hlo, hhi, -, -⟩ :=
      Table.check_of_find hr
    obtain ⟨-, hpos, hmax, -⟩ := db.generations.checked g hmem
    refine ⟨hid, howner, hepoch, hexpected, hcap, hcheckpoint, hsource, hlo, hhi, ?_, by simp⟩
    intro n hn
    cases hn
    exact ⟨hpos, hmax⟩
  obtain ⟨operations, hupdate⟩ := hupdate
  refine ⟨{ db with operations }, bind_eq_ok.2 ⟨(), assertNamespace_eq_ok.2 hns, ?_⟩⟩
  rw [ho, hg]
  exact bind_eq_ok.2 ⟨(), require_eq_ok.2 hhas, bind_eq_ok.2
    ⟨{ db with operations }, write_eq_ok.2 ⟨operations, hupdate, rfl⟩, rfl⟩⟩

/-- A readback that is committed is a reconciliation, with the tick of a receipt that verifies. -/
theorem reconcileOne_ok {r : Option ℤ} (h : reconcileOne b w db s clock k = .ok (r, db')) :
    (r = none ∧ db' = db) ∨
      Step b db (.call s clock (.reconcile k) (.ok (.reconciled r.isSome))) db' ∧
        r = (db.receipt k).map (·.mathTick) ∧
        ∀ g, db.receipt k = some g → db.verifies b w g ∧
          ∃ o, db'.operations.find k = some o ∧ o.state = .resolved ∧
            o.resolvedTick = some g.mathTick ∧ o.recordedIn b g := by
  unfold reconcileOne at h
  split at h
  · split at h
    · cases h
      exact .inl ⟨rfl, rfl⟩
    · cases h
  · next resolved after hcall =>
      have hexec : execute b db s clock (.reconcile k) = .ok (.reconciled resolved, after) :=
        replied_eq_ok.2 ⟨resolved, hcall, rfl⟩
      obtain ⟨o, operations, ho, rfl, hhas, hupdate, rfl⟩ := pcReconcile_ok hcall
      have hfind := find_updateOperation (k := k) hupdate fun _ => rfl
      rw [if_pos rfl, ho] at hfind
      dsimp only at h
      split at h
      · next o' g ho' hg =>
          have hg' : db.receipt k = some g := hg
          rw [hfind] at ho'
          cases ho'
          split at h
          · cases h
            exact .inl ⟨rfl, rfl⟩
          · next hrec =>
              split at h
              · cases h
                exact .inl ⟨rfl, rfl⟩
              · next hv =>
                  rw [hg', isSome_some, if_pos rfl] at h
                  cases h
                  refine .inr ⟨?_, by rw [hg']; rfl, fun g₁ hg₁ => ?_⟩
                  · rw [hg'] at hexec
                    exact .done hexec
                  · obtain rfl : g = g₁ := some_inj.1 (hg'.symm.trans hg₁)
                    refine ⟨not_not.1 hv, _, hfind, ?_, ?_, not_not.1 hrec⟩
                    · simp [OperationRow.reconciled, hg']
                    · simp [OperationRow.reconciled, hg']
      · next hnone =>
          have hg : db.receipt k = none := by
            cases hg : db.receipt k with
            | none => rfl
            | some g => exact absurd hg (hnone _ g hfind)
          rw [hg, isSome_none, if_neg Bool.false_ne_true] at h
          cases h
          refine .inr ⟨?_, by rw [hg]; rfl, fun g hg₁ => ?_⟩
          · rw [hg] at hexec
            exact .done hexec
          · rw [hg] at hg₁
            cases hg₁

/-- A reconciled operation is recorded where it was. -/
theorem OperationRow.recordedIn_reconciled {o : OperationRow}
    {receipt : Option GenerationRow} {now : Time} {xid : ℕ} :
    (o.reconciled receipt now xid).recordedIn b g ↔ o.recordedIn b g := Iff.rfl

/-- A readback finds every receipt that verifies. -/
theorem reconcileOne_verified (hi : Inv b db) (hst : Stamped db) {r : Option ℤ}
    (hg : db.receipt k = some g) (hv : db.verifies b w g)
    (h : reconcileOne b w db s clock k = .ok (r, db')) : r = some g.mathTick := by
  rcases reconcileOne_ok h with ⟨rfl, -⟩ | ⟨-, hr, -⟩
  · exfalso
    unfold reconcileOne at h
    split at h
    · next error hcall =>
        split at h
        · next heq =>
            rw [heq] at hcall
            exact pcReconcile_identity hi hst hcall
        · cases h
    · next resolved after hcall =>
        obtain ⟨o, operations, ho, rfl, -, hupdate, rfl⟩ := pcReconcile_ok hcall
        obtain ⟨o₁, ho₁, hrec, -⟩ := hi.recorded hst hg
        obtain rfl : o = o₁ := some_inj.1 (ho.symm.trans ho₁)
        have hfind := find_updateOperation (k := k) hupdate fun _ => rfl
        rw [if_pos rfl, ho] at hfind
        have hg' : ({ db with operations } : Database).receipt k = some g := hg
        have hv' : ({ db with operations } : Database).verifies b w g := hv
        simp only [hfind, hg', map_some] at h
        rw [if_neg (not_not.2 (OperationRow.recordedIn_reconciled.2 hrec)), if_neg (not_not.2 hv'), hg,
          isSome_some, if_pos rfl] at h
        cases h
  · rw [hr, hg]
    rfl

/-- An allowed caller resolves an operation whose receipt verifies. -/
theorem exists_reconcileOne (hi : Inv b db) (hst : Stamped db) (hns : namespaceAllowed db s k.1)
    (hg : db.receipt k = some g) (hv : db.verifies b w g) (clock : Clock) :
    ∃ db', reconcileOne b w db s clock k = .ok (some g.mathTick, db') := by
  obtain ⟨after, hcall⟩ := pcReconcile_receipt hi hst hns hg clock
  have hok : ∃ r db', reconcileOne b w db s clock k = .ok (r, db') := by
    obtain ⟨o, operations, ho, htrue, -, hupdate, rfl⟩ := pcReconcile_ok hcall
    unfold reconcileOne
    rw [hcall]
    dsimp only
    split
    · split
      · exact ⟨_, _, rfl⟩
      · split
        · exact ⟨_, _, rfl⟩
        · exact ⟨_, _, rfl⟩
    · next hnone =>
        exfalso
        have hfind := find_updateOperation (k := k) hupdate fun _ => rfl
        rw [if_pos rfl, ho] at hfind
        exact hnone _ g hfind hg
  obtain ⟨r, db', h⟩ := hok
  obtain rfl := reconcileOne_verified hi hst hg hv h
  exact ⟨db', h⟩

/-! ## Passes -/

/-- A readback is one reconciliation, or nothing happens. -/
theorem reconcileOne_run {r : Option ℤ} (h : reconcileOne b w db s clock k = .ok (r, db')) :
    ∃ es, Run (Step b) db es db' ∧ ∀ k', es.any (Event.cleaned k') = false := by
  rcases reconcileOne_ok h with ⟨-, rfl⟩ | ⟨hstep, -⟩
  · exact ⟨[], .nil, fun _ => rfl⟩
  · exact ⟨_, Run.nil.snoc hstep, fun _ => rfl⟩

/-- A pass is a run that cleans up what others clean up. -/
theorem Pass.run {ks : List OpKey} (h : Pass b w s db ks es db') :
    ∃ es', Run (Step b) db es' db' ∧
      ∀ k, es'.any (Event.cleaned k) = es.any (Event.cleaned k) := by
  induction h with
  | nil => exact ⟨[], .nil, fun _ => rfl⟩
  | @others db db₁ db₂ ks es es' hrun _ ih =>
    obtain ⟨es'', hrun', hany⟩ := ih
    exact ⟨es ++ es'', hrun.append hrun', fun k => by rw [any_append, any_append, hany]⟩
  | next hone _ ih =>
    obtain ⟨es₀, hrun, hnone⟩ := reconcileOne_run hone
    obtain ⟨es', hrun', hany⟩ := ih
    exact ⟨es₀ ++ es', hrun.append hrun', fun k => by rw [any_append, hnone, Bool.false_or, hany]⟩

/-- What holds of every state that a run from installed tables reaches. -/
structure Reached (b : Builtins) (db : Database) : Prop where
  inv : Inv b db
  stamped : Stamped db

theorem Reached.installed (h : Installed db) : Reached b db := ⟨.installed h, .installed h⟩

theorem Reached.step (hi : Reached b db) (h : Step b db e db') : Reached b db' :=
  ⟨hi.inv.step h, hi.stamped.step h⟩

theorem Reached.run (hi : Reached b db) (h : Run (Step b) db es db') :
    Reached b db' :=
  h.keeps (Reached b) hi fun _ _ _ hi hs => hi.step hs

/-- A pass resolves every operation of its page whose receipt verifies, unless it is cleaned up. -/
theorem Pass.resolves {ks : List OpKey} (hp : Pass b w s db ks es db')
    (hi : Reached b db) (hk : k ∈ ks) (hg : db.receipt k = some g)
    (hv : db.verifies b w g) (hes : es.any (Event.cleaned k) = false) :
    ∃ o, db'.operations.find k = some o ∧ o.state = .resolved ∧ o.resolvedTick = some g.mathTick := by
  induction hp with
  | nil => cases hk
  | others hrun _ ih =>
    rw [any_append, Bool.or_eq_false_iff] at hes
    obtain ⟨hg', hv'⟩ := verified_run hrun hg hv hes.1
    exact ih (hi.run hrun) hk hg' hv' hes.2
  | @next db db₁ db₂ k' ks es clock r hone hpass ih =>
    by_cases hkk : k = k'
    · subst hkk
      obtain rfl := reconcileOne_verified hi.inv hi.stamped hg hv hone
      rcases reconcileOne_ok hone with ⟨hnone, -⟩ | ⟨hstep, -, hres⟩
      · cases hnone
      · obtain ⟨-, o, ho, hstate, htick, -⟩ := hres g hg
        obtain ⟨es', hrun, hany⟩ := hpass.run
        exact (resolved_run (hi.inv.step hstep) ho ⟨hstate, htick⟩ hrun).1 ((hany k).trans hes)
    · obtain ⟨es₀, hrun, hnone⟩ := reconcileOne_run hone
      obtain ⟨hg', hv'⟩ := verified_run hrun hg hv (hnone k)
      exact ih (hi.run hrun) (mem_of_ne_of_mem hkk hk) hg' hv' hes

end Polis.Coordinator
