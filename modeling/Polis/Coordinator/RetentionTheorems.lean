import Polis.Coordinator.PublicationTheorems
import Mathlib.Algebra.Order.BigOperators.Group.List

/-!
# Receipt retention

Admissions stay within the budget of their namespace, which only a cleanup gives back. A cleanup removes
a receipt that is neither current nor expected, and the floor keeps its tick from being published again.
-/

namespace Polis.Coordinator

open List

open Queue (Time Clock isSha256)

variable {b : Builtins} {db₀ db db' : Database} {e : Event} {k : OpKey}

/-! ## The budget -/

/-- What the operations of a namespace have reserved. -/
def Database.charges (db : Database) (env : String) : List ℤ :=
  (db.operationsOf env).map (·.reservedBytes)

/-- Every namespace is within its budget. -/
def Budgeted (db : Database) : Prop :=
  ∀ r ∈ db.budgets.rows, ((db.charges r.mathEnv).length : ℤ) ≤ r.maxOperations ∧
    (db.charges r.mathEnv).sum ≤ r.maxBytes

/-- A new version of a row has its charge. -/
theorem charges_update {f : OperationRow → OperationRow} {operations : Table OperationRow}
    (h : db.operations.update k f = .ok operations) (henv : ∀ o, (f o).mathEnv = o.mathEnv)
    (hbytes : ∀ o, (f o).reservedBytes = o.reservedBytes) (hdb : db'.operations = operations)
    (env : String) : db'.charges env = db.charges env := by
  unfold Database.charges Database.operationsOf
  rw [hdb, Table.filter_update (fun o => by rw [henv]) h, map_map]
  apply map_congr_left
  intro o _
  rw [Function.comp_apply]
  split
  · exact hbytes o
  · rfl

theorem Budgeted.step (hi : Budgeted db) (h : Step b db e db') : Budgeted db' := by
  intro r hr
  rw [h.setup.budgets] at hr
  have hold := hi r hr
  cases h.effect with
  | quiet | damage | committed => exact hold
  | transitioned _ hnew =>
    unfold Database.charges Database.operationsOf at hold ⊢
    rw [← hnew.operations] at hold
    exact hold
  | reconciled _ _ hupdate | protection hupdate =>
    rw [charges_update hupdate (fun _ => rfl) (fun _ => rfl) rfl]
    exact hold
  | @admitted s clock a operations d hnew =>
    obtain ⟨budget, hbudget, hcount, hbytes⟩ := hnew.capacity
    obtain ⟨hbmem, hbenv⟩ := Table.find_eq_some.1 hbudget
    unfold Database.charges Database.operationsOf
    rw [Table.filter_insert hnew.inserted]
    split
    · next henv =>
        have henv : a.env = r.mathEnv := of_decide_eq_true henv
        -- The budget that was checked is the budget of the namespace.
        have hsame : budget = r :=
          inj_on_of_nodup_map db.budgets.keys_nodup hbmem hr (hbenv.trans henv)
        subst hsame
        rw [henv] at hcount hbytes
        rw [map_append, length_append, sum_append]
        simp only [map_cons, map_nil, length_cons, length_nil, sum_cons,
          sum_nil, length_map]
        change ((((db.operationsOf budget.mathEnv).length + (0 + 1) : ℕ) : ℤ) ≤ _) ∧
          db.usedBytes budget.mathEnv + (a.reservedBytes + 0) ≤ _
        omega
    · rw [append_nil]
      exact hold
  | @cleaned s clock k g hrem =>
    have hsub : ((db.operations.delete k).rows.filter fun o => o.mathEnv = r.mathEnv).Sublist
        (db.operationsOf r.mathEnv) := filter_sublist.filter _
    have hcharges := hsub.map (·.reservedBytes)
    refine ⟨le_trans (Int.ofNat_le.2 hcharges.length_le) hold.1,
      (hcharges.sum_le_sum fun n hn => ?_).trans hold.2⟩
    obtain ⟨o, ho, rfl⟩ := mem_map.1 hn
    have hcheck := db.operations.checked o (mem_of_mem_filter ho)
    have hge : 1048576 ≤ o.reservedBytes := hcheck.2.2.2.2.2.2.2.1
    omega

/-! ## Resolution -/

/-- The event admits an operation. -/
def Event.admits (k : OpKey) : Event → Bool
  | .call _ _ (.admission a) (.ok (.admitted .admitted)) => a.op = k
  | _ => false

/-- A resolved operation has its exact and complete receipt. -/
structure Resolved (b : Builtins) (db : Database) (o : OperationRow) (tick : ℤ) : Prop where
  state : o.state = .resolved
  resolvedTick : o.resolvedTick = some tick
  receipt : ∃ g, db.receipt o.key = some g ∧ g.mathTick = tick ∧ o.identifies b g ∧ db.complete g

theorem Inv.resolved_receipt (hi : Inv b db) {o : OperationRow} (ho : o ∈ db.operations.rows)
    (hstate : o.state = .resolved) : ∃ tick, Resolved b db o tick := by
  have hcheck := db.operations.checked o ho
  have hsome := hcheck.2.2.2.2.2.2.2.2.2.2.1 hstate
  obtain ⟨tick, htick⟩ := Option.isSome_iff_exists.1 hsome
  obtain ⟨g, hg, hgt⟩ := hi.resolved o ho tick htick
  obtain ⟨hmem, hop⟩ := receipt_eq_some.1 hg
  obtain ⟨o', ho', hid⟩ := hi.admitted g hmem
  have hfind : db.operations.find o.key = some o := Table.find_of_mem ho
  rw [hop, hfind] at ho'
  cases ho'
  exact ⟨tick, hstate, htick, g, hg, hgt, hid, hi.complete g hmem⟩

/-- A resolved operation stays resolved at its tick until its cleanup removes it. -/
theorem resolved_step (hi : Inv b db) (h : Step b db e db') {o : OperationRow} {tick : ℤ}
    (ho : db.operations.find k = some o) (hres : o.state = .resolved ∧ o.resolvedTick = some tick)
    (he : e.cleaned k = false) :
    ∃ o', db'.operations.find k = some o' ∧ o'.state = .resolved ∧ o'.resolvedTick = some tick := by
  rcases operation_step h ho he with ho' | ⟨now, ho'⟩ | ⟨isProtected, ho'⟩
  · exact ⟨o, ho', hres⟩
  · obtain ⟨hmem, hkey⟩ := Table.find_eq_some.1 ho
    obtain ⟨g, hg, hgt⟩ := hi.resolved o hmem tick hres.2
    obtain rfl : o.key = k := hkey
    refine ⟨_, ho', ?_, ?_⟩
    · simp [OperationRow.reconciled, hg]
    · simp [OperationRow.reconciled, hg, hgt]
  · exact ⟨_, ho', hres⟩

/-- No operation comes back without a new admission. -/
theorem absent_step (h : Step b db e db') (hk : db.operations.find k = none)
    (he : e.admits k = false) : db'.operations.find k = none := by
  cases h.effect with
  | quiet | damage | committed => exact hk
  | transitioned _ hnew => exact (congrArg (Table.find · k) hnew.operations).trans hk
  | @admitted s clock a operations d hnew =>
    change operations.find k = none
    rw [Table.find_insert hnew.inserted, if_neg]
    · exact hk
    · intro heq
      exact of_decide_eq_false he heq.symm
  | @reconciled _ _ _ _ _ _ _ hupdate | @protection _ _ _ _ _ hupdate =>
    have hfind := find_updateOperation (k := k) hupdate fun _ => rfl
    split at hfind
    · next heq =>
        subst heq
        rw [hk] at hfind
        exact hfind
    · exact hfind.trans hk
  | @cleaned s clock k' g hrem =>
    change (db.operations.delete k').find k = none
    rw [Table.find_delete, hk, ite_self]

/-- A cleanup leaves no operation. -/
theorem cleaned_operation (h : Step b db e db') (he : e.cleaned k = true) :
    db'.operations.find k = none := by
  obtain ⟨g, rfl⟩ := h.effect.of_cleaned he
  change (db.operations.delete k).find k = none
  rw [Table.find_delete, if_pos rfl]

/-- Over a run a resolved operation stays so until its cleanup, and no later row of it is otherwise
unless the operation is admitted anew. -/
theorem resolved_run {es : List Event} {o : OperationRow} {tick : ℤ} (hi : Inv b db)
    (ho : db.operations.find k = some o) (hres : o.state = .resolved ∧ o.resolvedTick = some tick)
    (h : Run (Step b) db es db') :
    (es.any (Event.cleaned k) = false → ∃ o', db'.operations.find k = some o' ∧
      o'.state = .resolved ∧ o'.resolvedTick = some tick) ∧
    (es.any (Event.admits k) = false → ∀ o', db'.operations.find k = some o' →
      o'.state = .resolved ∧ o'.resolvedTick = some tick) := by
  have hrun : Inv b db' ∧
      (es.any (Event.cleaned k) = false → ∃ o', db'.operations.find k = some o' ∧
        o'.state = .resolved ∧ o'.resolvedTick = some tick) ∧
      (es.any (Event.admits k) = false → ∀ o', db'.operations.find k = some o' →
        o'.state = .resolved ∧ o'.resolvedTick = some tick) := by
    apply h.invariant fun es d => Inv b d ∧
      (es.any (Event.cleaned k) = false → ∃ o', d.operations.find k = some o' ∧
        o'.state = .resolved ∧ o'.resolvedTick = some tick) ∧
      (es.any (Event.admits k) = false → ∀ o', d.operations.find k = some o' →
        o'.state = .resolved ∧ o'.resolvedTick = some tick)
    · refine ⟨hi, fun _ => ⟨o, ho, hres⟩, fun _ o' ho' => ?_⟩
      obtain rfl : o = o' := Option.some.inj (ho.symm.trans ho')
      exact hres
    · rintro es d e d' - ⟨hd, hkept, honly⟩ hstep
      simp only [any_append, any_cons, any_nil, Bool.or_false, Bool.or_eq_false_iff]
      refine ⟨hd.step hstep, fun hclean => ?_, fun hnew o' ho' => ?_⟩
      · obtain ⟨o₁, ho₁, hres₁⟩ := hkept hclean.1
        exact resolved_step hd hstep ho₁ hres₁ hclean.2
      · cases hfind : d.operations.find k with
        | none =>
          have hnone := absent_step hstep hfind hnew.2
          rw [ho'] at hnone
          cases hnone
        | some o₁ =>
          have hres₁ := honly hnew.1 o₁ hfind
          cases hclean : e.cleaned k with
          | true =>
            have hnone := cleaned_operation hstep hclean
            rw [ho'] at hnone
            cases hnone
          | false =>
            obtain ⟨o₂, ho₂, hres₂⟩ := resolved_step hd hstep hfind hres₁ hclean
            obtain rfl : o₂ = o' := Option.some.inj (ho₂.symm.trans ho')
            exact hres₂
  exact hrun.2

/-! ## Cleanup -/

/-- A receipt that nothing needs any more. -/
structure Spent (db : Database) (g : GenerationRow) : Prop where
  pointer : ∀ r, db.ticks.find g.conv = some r → r.mathTick ≠ g.mathTick
  main : ∀ r, db.main.find g.conv = some r → r.mathTick ≠ g.mathTick
  bidtopid : ∀ r, db.bidtopid.find g.conv = some r → r.mathTick ≠ g.mathTick
  ptptstats : ∀ r, db.ptptstats.find g.conv = some r → r.mathTick ≠ g.mathTick
  floor : ∃ f, db.floors.find g.conv = some f ∧ g.mathTick < f.mathTick
  resolved : ∃ o, db.operations.find g.op = some o ∧ o.state = .resolved ∧ o.isProtected = false
  unreferenced : db.referencesTo g.op = []
  unexpected : ∀ o ∈ db.operations.rows, (o.mathEnv, o.zid) = g.conv →
    o.state ≠ .resolved ∨ o.isProtected = true →
    o.expectedTick ≠ some g.mathTick ∧ o.resolvedTick ≠ some g.mathTick

theorem Removable.spent {clock : Clock} {g : GenerationRow} (h : Removable db clock k g) :
    Spent db g ∧ g.op = k := by
  obtain ⟨-, rfl⟩ := receipt_eq_some.1 h.receipt
  have hunused := h.unused
  unfold Database.inUse at hunused
  simp only [not_or, not_exists, not_and] at hunused
  obtain ⟨-, hticks, hmain, hbid, hptpt, hops, -⟩ := hunused
  obtain ⟨o, ho, hstate, hprot, -⟩ := h.operation
  obtain ⟨f, hf, htick, -⟩ := h.passed
  refine ⟨⟨fun r hr => hticks r hr, fun r hr => hmain r hr, fun r hr => hbid r hr,
    fun r hr => hptpt r hr, ⟨f, hf, htick⟩, ⟨o, ho, hstate, hprot⟩, h.unreferenced, ?_⟩, rfl⟩
  intro o' ho' hconv hopen
  exact hops o' ho' hconv hopen

/-- A receipt disappears only in its own cleanup, and only when it is spent. -/
theorem removed_step (h : Step b db e db') {g : GenerationRow} (hg : g ∈ db.generations.rows)
    (hgone : g ∉ db'.generations.rows) : e.cleaned g.op = true ∧ Spent db g := by
  cases h.effect with
  | quiet | damage | admitted | reconciled | protection => exact absurd hg hgone
  | transitioned _ hnew => exact absurd (hnew.generations ▸ hg) hgone
  | committed _ _ hrec =>
    refine absurd ?_ hgone
    rw [Table.insert_rows hrec.generations]
    exact mem_append_left _ hg
  | @cleaned s clock k' g' hrem =>
    have hop : g.op = k' := by
      by_contra hne
      exact hgone (Table.mem_deleteWhere.2 ⟨hg, hne⟩)
    have hsame := hrem.receipt
    rw [receipt_eq_some.2 ⟨hg, hop⟩] at hsame
    cases hsame
    exact ⟨decide_eq_true hop.symm, hrem.spent.1⟩

/-- After the floor has reached a tick, only greater ticks are committed. -/
theorem committed_above {es : List Event} {k : ConvKey} {n : ℤ} (h : Run (Step b) db es db')
    (hn : atLeast (db.floor k) n) : ∀ tick ∈ es.filterMap (Event.committed k), n < tick := by
  have hrun : atLeast (db'.floor k) n ∧ ∀ tick ∈ es.filterMap (Event.committed k), n < tick := by
    apply h.invariant fun es d =>
      atLeast (d.floor k) n ∧ ∀ tick ∈ es.filterMap (Event.committed k), n < tick
    · exact ⟨hn, fun tick h => nomatch h⟩
    · rintro es d e d' - ⟨hd, hticks⟩ hstep
      refine ⟨atLeast_floor_step hstep hd, fun tick htick => ?_⟩
      rw [filterMap_append] at htick
      rcases mem_append.1 htick with htick | htick
      · exact hticks tick htick
      · obtain ⟨e', he', hcommitted⟩ := mem_filterMap.1 htick
        obtain rfl := mem_singleton.1 he'
        obtain ⟨rfl, -⟩ := committed_step hstep hcommitted
        exact lt_nextTick (atLeast_currentTick.2 (.inr (.inr hd)))
  exact hrun.2

/-- Over every run: a namespace keeps to its budget; a resolved operation has its exact and complete
receipt and stays resolved; a receipt is removed only by its cleanup, when it is neither current nor the
floor nor protected, referenced or expected; and no later publication is at its tick or below. -/
theorem receipt_retention {es : List Event} (h0 : Installed db₀) (h : Run (Step b) db₀ es db) :
    (∀ env budget, db₀.budgets.find env = some budget →
      ((db.operationsOf env).length : ℤ) ≤ budget.maxOperations ∧
        db.usedBytes env ≤ budget.maxBytes) ∧
    (∀ o ∈ db.operations.rows, o.state = .resolved → ∃ tick, Resolved b db o tick) ∧
    (∀ o tick post db', o ∈ db.operations.rows → o.state = .resolved → o.resolvedTick = some tick →
      Run (Step b) db post db' →
      (post.any (Event.cleaned o.key) = false → ∃ o', db'.operations.find o.key = some o' ∧
        o'.state = .resolved ∧ o'.resolvedTick = some tick) ∧
      (post.any (Event.admits o.key) = false → ∀ o', db'.operations.find o.key = some o' →
        o'.state = .resolved ∧ o'.resolvedTick = some tick)) ∧
    (∀ e db' g, Step b db e db' → g ∈ db.generations.rows → g ∉ db'.generations.rows →
      e.cleaned g.op = true ∧ Spent db g) ∧
    ∀ e db' g post db'', Step b db e db' → g ∈ db.generations.rows → g ∉ db'.generations.rows →
      Run (Step b) db' post db'' →
      ∀ tick ∈ post.filterMap (Event.committed g.conv), g.mathTick < tick := by
  have hi : Inv b db := .run h0 h
  have hbudget : Budgeted db := by
    apply h.keeps Budgeted
    · intro r hr
      have hcheck := db₀.budgets.checked r hr
      have hnil : db₀.charges r.mathEnv = [] := by
        unfold Database.charges Database.operationsOf
        rw [h0.operations]
        rfl
      rw [hnil]
      refine ⟨?_, ?_⟩
      · exact le_trans (by decide) hcheck.2.1
      · exact le_trans (by decide) hcheck.2.2.2.1
    · exact fun _ _ _ hi hs => hi.step hs
  refine ⟨fun env budget henv => ?_, fun o ho hstate => hi.resolved_receipt ho hstate,
    fun o tick post db' ho hstate htick hrun =>
      resolved_run hi (Table.find_of_mem ho) ⟨hstate, htick⟩ hrun,
    fun e db' g hstep hg hgone => removed_step hstep hg hgone, ?_⟩
  · obtain ⟨hmem, rfl⟩ := Table.find_eq_some.1 henv
    obtain ⟨hcount, hbytes⟩ := hbudget budget ((setup_run h).budgets ▸ hmem)
    rw [Database.charges, length_map] at hcount
    exact ⟨hcount, hbytes⟩
  · intro e db' g post db'' hstep hg hgone hrun
    obtain ⟨f, hf, hlt⟩ := (removed_step hstep hg hgone).2.floor
    apply committed_above hrun
    apply atLeast_floor_step hstep
    exact ⟨f.mathTick, by simp [Database.floor, hf], hlt.le⟩

/-- After the first of two publications is cleaned up, one operation is charged. -/
theorem receipt_retention_cleaned :
    (((history sampleBuiltins sampleDatabase (sampleCalls sampleCleanup)).2.operationsOf
      "prod").length : ℤ) ≤ 10 ∧
    (history sampleBuiltins sampleDatabase (sampleCalls sampleCleanup)).2.usedBytes "prod" ≤
      1073741824 :=
  (receipt_retention sampleDatabase_installed (history_run sampleBuiltins sampleDatabase
    (sampleCalls sampleCleanup))).1 "prod" ⟨"prod", 10, 1073741824⟩ (by decide +kernel)

end Polis.Coordinator
