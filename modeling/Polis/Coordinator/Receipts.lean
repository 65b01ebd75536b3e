import Polis.Coordinator.Ticks

/-!
# Receipts and their operations

A receipt has exactly its three payloads and the operation that was admitted for it, until a cleanup
removes all of them. An operation that is resolved has its receipt.
-/

namespace Polis.Coordinator

open Json List Table
open Queue (Time Clock isSha256)

def GenerationRow.conv (g : GenerationRow) : ConvKey := (g.mathEnv, g.zid)

def GenerationRow.op (g : GenerationRow) : OpKey := (g.mathEnv, g.zid, g.operationId)

def OperationRow.key (o : OperationRow) : OpKey := (o.mathEnv, o.zid, o.operationId)

/-- The digests of a payload. -/
def PayloadRow.digests (p : PayloadRow) : PayloadKind × String × String :=
  (p.payloadKind, p.originalSha256, p.storageSha256)

/-- The digests that a receipt records for a payload. -/
def GenerationRow.digests (g : GenerationRow) (kind : PayloadKind) : PayloadKind × String × String :=
  (kind, g.inputCheckpoint.originalDigests.get kind, g.inputCheckpoint.payloadDigests.get kind)

/-- The operation was admitted for the publication of the receipt. -/
def OperationRow.identifies (b : Builtins) (o : OperationRow) (g : GenerationRow) : Prop :=
  g.ownerId = o.ownerId ∧ g.publisherEpoch = o.ownerEpoch ∧
    g.capabilitySha256 = o.capabilitySha256 ∧ g.expectedTick = o.expectedTick ∧
    checkpointDigest b g.inputCheckpoint.base = o.checkpointSha256

variable {b : Builtins} {db db' : Database} {e : Event} {k : ConvKey}
variable {g : GenerationRow}

/-! ## Receipts by operation -/

theorem receipt_eq_some {k : OpKey} :
    db.receipt k = some g ↔ g ∈ db.generations.rows ∧ g.op = k := by
  constructor
  · intro h
    have hop := find?_some h
    exact ⟨mem_of_find?_eq_some h, of_decide_eq_true hop⟩
  · rintro ⟨hg, rfl⟩
    cases hfind : db.receipt g.op with
    | none => exact absurd (decide_eq_true rfl) (find?_eq_none.1 hfind g hg)
    | some g' =>
      have hg' := mem_of_find?_eq_some hfind
      have hfound := find?_some hfind
      have hop : g'.op = g.op := of_decide_eq_true hfound
      congr 1
      exact unique_inj (u := g.op) hg' hg (congrArg some hop) rfl

/-- A conversation has one generation at a tick. -/
theorem generation_ext {g g' : GenerationRow} (hg : g ∈ db.generations.rows)
    (hg' : g' ∈ db.generations.rows) (hconv : g.conv = g'.conv) (htick : g.mathTick = g'.mathTick) :
    g = g' := by
  apply inj_on_of_nodup_map db.generations.keys_nodup hg hg'
  obtain ⟨henv, hzid⟩ := Prod.mk.inj hconv
  change (g.mathEnv, g.zid, g.mathTick) = (g'.mathEnv, g'.zid, g'.mathTick)
  rw [henv, hzid, htick]

/-! ## The payloads of a receipt -/

/-- The receipt has its three payloads, and nothing else is at its tick. -/
def Database.complete (db : Database) (g : GenerationRow) : Prop :=
  (db.payloadsOf g.conv g.mathTick).map PayloadRow.digests =
    [g.digests .main, g.digests .bidtopid, g.digests .ptptstats]

theorem Database.complete.length (h : db.complete g) :
    (db.payloadsOf g.conv g.mathTick).length = 3 := by
  have hmap := congrArg List.length h
  rwa [length_map] at hmap

/-- The digests of each payload are those that the receipt records for its kind. -/
theorem Database.complete.recorded {p : PayloadRow} (h : db.complete g)
    (hp : p ∈ db.payloadsOf g.conv g.mathTick) :
    p.originalSha256 = g.inputCheckpoint.originalDigests.get p.payloadKind ∧
      p.storageSha256 = g.inputCheckpoint.payloadDigests.get p.payloadKind := by
  have hmem : p.digests ∈ [g.digests .main, g.digests .bidtopid, g.digests .ptptstats] :=
    h ▸ mem_map_of_mem hp
  have hof : ∀ kind, p.digests = g.digests kind →
      p.originalSha256 = g.inputCheckpoint.originalDigests.get p.payloadKind ∧
        p.storageSha256 = g.inputCheckpoint.payloadDigests.get p.payloadKind := by
    intro kind heq
    obtain ⟨hkind, hrest⟩ := Prod.mk.inj heq
    obtain ⟨horiginal, hstorage⟩ := Prod.mk.inj hrest
    rw [hkind]
    exact ⟨horiginal, hstorage⟩
  simp only [mem_cons, not_mem_nil, or_false] at hmem
  rcases hmem with heq | heq | heq
  · exact hof _ heq
  · exact hof _ heq
  · exact hof _ heq

/-- Rows that are inserted one after the other are new to the first table. -/
theorem Recorded.payload_rows {a : PublishArgs} {d : PayloadData} {tick cursor : ℤ}
    {generations : Table GenerationRow} {payloads : Table PayloadRow} {floors : Table FloorRow}
    (h : Recorded b db a d tick cursor generations payloads floors) :
    payloads.rows = db.payloads.rows ++
      [a.payload b d tick .main, a.payload b d tick .bidtopid, a.payload b d tick .ptptstats] ∧
    ∀ p ∈ db.payloads.rows, ¬((p.mathEnv, p.zid) = a.conv ∧ p.mathTick = tick) := by
  obtain ⟨p, q, hp, hq, hr⟩ := h.payloads
  have hrows := insert_rows hp
  have hrows₂ := insert_rows hq
  refine ⟨by rw [insert_rows hr, hrows₂, hrows]; simp, fun r hr₀ hat => ?_⟩
  obtain ⟨hconv, htick⟩ := hat
  have hkey : Row.key r = ((a.env, a.zid, tick, r.payloadKind) : String × ℤ × ℤ × PayloadKind) := by
    obtain ⟨henv, hzid⟩ := Prod.mk.inj hconv
    change (r.mathEnv, r.zid, r.mathTick, r.payloadKind) = _
    rw [henv, hzid, htick]
  cases hkind : r.payloadKind with
  | main =>
    rw [hkind] at hkey
    exact find_eq_none.1 (insert_fresh hp) r hr₀ hkey
  | bidtopid =>
    rw [hkind] at hkey
    refine find_eq_none.1 (insert_fresh hq) r ?_ hkey
    rw [hrows]
    exact mem_append_left _ hr₀
  | ptptstats =>
    rw [hkind] at hkey
    refine find_eq_none.1 (insert_fresh hr) r ?_ hkey
    rw [hrows₂, hrows]
    exact mem_append_left _ (mem_append_left _ hr₀)

/-- The payloads of the other generations are as they were; the new generation has its own. -/
theorem Recorded.payloadsOf {a : PublishArgs} {d : PayloadData} {tick cursor : ℤ}
    {generations : Table GenerationRow} {payloads : Table PayloadRow} {floors : Table FloorRow}
    (h : Recorded b db a d tick cursor generations payloads floors)
    (hdb : db'.payloads = payloads) (k : ConvKey) (n : ℤ) :
    db'.payloadsOf k n = if k = a.conv ∧ n = tick then
      [a.payload b d tick .main, a.payload b d tick .bidtopid, a.payload b d tick .ptptstats]
    else db.payloadsOf k n := by
  obtain ⟨hrows, hnew⟩ := h.payload_rows
  unfold Database.payloadsOf
  rw [hdb, hrows, filter_append]
  have hat : ∀ p ∈ [a.payload b d tick .main, a.payload b d tick .bidtopid,
      a.payload b d tick .ptptstats], ((p.mathEnv, p.zid) = k ∧ p.mathTick = n) ↔
        k = a.conv ∧ n = tick := by
    intro p hp
    have hp' : (p.mathEnv, p.zid) = a.conv ∧ p.mathTick = tick := by
      simp only [mem_cons, not_mem_nil, or_false] at hp
      rcases hp with rfl | rfl | rfl
      · exact ⟨rfl, rfl⟩
      · exact ⟨rfl, rfl⟩
      · exact ⟨rfl, rfl⟩
    rw [hp'.1, hp'.2, eq_comm, eq_comm (a := tick)]
  split
  · next heq =>
      have hnil : db.payloads.rows.filter
          (fun p => decide ((p.mathEnv, p.zid) = k ∧ p.mathTick = n)) = [] := by
        apply filter_eq_nil_iff.2
        intro p hp
        rw [heq.1, heq.2, decide_eq_true_eq]
        exact hnew p hp
      rw [hnil, nil_append]
      exact filter_eq_self.2 fun p hp => decide_eq_true ((hat p hp).2 heq)
  · next hne =>
      have hnil : [a.payload b d tick .main, a.payload b d tick .bidtopid,
          a.payload b d tick .ptptstats].filter
          (fun p => decide ((p.mathEnv, p.zid) = k ∧ p.mathTick = n)) = [] := by
        apply filter_eq_nil_iff.2
        intro p hp
        rw [decide_eq_true_eq]
        exact fun h => hne ((hat p hp).1 h)
      rw [hnil, append_nil]

/-! ## The invariant -/

/-- What holds of the receipts and the operations after every step. -/
structure Inv (b : Builtins) (db : Database) : Prop where
  /-- A row was written by an earlier transaction. -/
  durable : ∀ o ∈ db.operations.rows, o.xmin < db.xid
  /-- A receipt has its payloads. -/
  complete : ∀ g ∈ db.generations.rows, db.complete g
  /-- A receipt has its operation. -/
  admitted : ∀ g ∈ db.generations.rows, ∃ o, db.operations.find g.op = some o ∧ o.identifies b g
  /-- A resolved operation has its receipt. -/
  resolved : ∀ o ∈ db.operations.rows, ∀ tick, o.resolvedTick = some tick →
    ∃ g, db.receipt o.key = some g ∧ g.mathTick = tick
  /-- The digests of a payload are those of its bytes. -/
  hashed : ∀ p ∈ db.payloads.rows, p.originalSha256 = b.sha256 p.originalBytes

theorem Inv.installed (h : Installed db) : Inv b db where
  durable o ho := by
    rw [h.operations] at ho
    cases ho
  complete g hg := by
    rw [h.generations] at hg
    cases hg
  admitted g hg := by
    rw [h.generations] at hg
    cases hg
  resolved o ho := by
    rw [h.operations] at ho
    cases ho
  hashed p hp := by
    rw [h.payloads] at hp
    cases hp

/-- Steps that write neither receipts nor operations. -/
theorem Inv.frame (hi : Inv b db) (hg : db'.generations = db.generations)
    (hp : db'.payloads = db.payloads) (ho : db'.operations = db.operations) (hx : db.xid ≤ db'.xid) :
    Inv b db' where
  durable o hmem := by
    rw [ho] at hmem
    exact (hi.durable o hmem).trans_le hx
  complete g hmem := by
    rw [hg] at hmem
    unfold Database.complete Database.payloadsOf
    rw [hp]
    exact hi.complete g hmem
  admitted g hmem := by
    rw [hg] at hmem
    rw [ho]
    exact hi.admitted g hmem
  resolved o hmem tick htick := by
    rw [ho] at hmem
    unfold Database.receipt
    rw [hg]
    exact hi.resolved o hmem tick htick
  hashed p hmem := by
    rw [hp] at hmem
    exact hi.hashed p hmem

/-- The other operations are as they were. -/
theorem find_updateOperation {k k' : OpKey} {f : OperationRow → OperationRow}
    {operations : Table OperationRow} (h : db.operations.update k' f = .ok operations)
    (hf : ∀ o, (f o).key = o.key) :
    operations.find k =
      if k = k' then (db.operations.find k').map f else db.operations.find k :=
  find_update hf h

/-- A new version of the row of one operation. -/
theorem Inv.update (hi : Inv b db) {k : OpKey} {f : OperationRow → OperationRow}
    {operations : Table OperationRow} (hupdate : db.operations.update k f = .ok operations)
    (hkey : ∀ o, (f o).key = o.key) (hxmin : ∀ o, (f o).xmin = db.xid)
    (hident : ∀ o g, o.identifies b g → (f o).identifies b g)
    (hres : ∀ o, db.operations.find k = some o → ∀ tick, (f o).resolvedTick = some tick →
      ∃ g, db.receipt k = some g ∧ g.mathTick = tick) :
    Inv b { db with operations, xid := db.xid + 1 } where
  durable o ho := by
    change o ∈ operations.rows at ho
    rw [update_rows hupdate] at ho
    obtain ⟨o₀, ho₀, rfl⟩ := mem_map.1 ho
    have hlt := hi.durable o₀ ho₀
    split
    · rw [hxmin]
      exact Nat.lt_succ_self _
    · exact hlt.trans (Nat.lt_succ_self _)
  complete := hi.complete
  admitted g hg := by
    obtain ⟨o, ho, hid⟩ := hi.admitted g hg
    have hfind := find_updateOperation (k := g.op) hupdate hkey
    split at hfind
    · next hk =>
        rw [← hk, ho] at hfind
        exact ⟨f o, hfind, hident o g hid⟩
    · exact ⟨o, hfind.trans ho, hid⟩
  resolved o ho tick htick := by
    change o ∈ operations.rows at ho
    rw [update_rows hupdate] at ho
    obtain ⟨o₀, ho₀, rfl⟩ := mem_map.1 ho
    by_cases hk : Row.key o₀ = k
    · rw [if_pos hk] at htick ⊢
      rw [hkey]
      have hfind : db.operations.find k = some o₀ := find_eq_some.2 ⟨ho₀, hk⟩
      obtain rfl : o₀.key = k := hk
      exact hres o₀ hfind tick htick
    · rw [if_neg hk] at htick ⊢
      exact hi.resolved o₀ ho₀ tick htick
  hashed := hi.hashed

theorem Inv.step (hi : Inv b db) (h : Step b db e db') : Inv b db' := by
  cases h.effect with
  | quiet _ _ _ => exact hi.frame rfl rfl rfl (Nat.le_succ _)
  | damage _ => exact hi.frame rfl rfl rfl le_rfl
  | transitioned _ hnew =>
    exact hi.frame hnew.generations hnew.payloads hnew.operations (Nat.le_succ _)
  | @reconciled s clock k o operations ho hhas hupdate =>
    refine hi.update hupdate (fun _ => rfl) (fun _ => rfl) (fun _ _ h => h) ?_
    intro o' _ tick htick
    obtain ⟨g, hg, rfl⟩ := Option.map_eq_some_iff.1 htick
    exact ⟨g, hg, rfl⟩
  | @protection s clock k isProtected operations hupdate =>
    refine hi.update hupdate (fun _ => rfl) (fun _ => rfl) (fun _ _ h => h) ?_
    intro o ho tick htick
    obtain ⟨hmem, hkey⟩ := find_eq_some.1 ho
    obtain rfl : o.key = k := hkey
    exact hi.resolved o hmem tick htick
  | @admitted s clock a operations d hnew =>
    have hrows := insert_rows hnew.inserted
    refine ⟨fun o ho => ?_, hi.complete, fun g hg => ?_, fun o ho tick htick => ?_, hi.hashed⟩
    · change o ∈ operations.rows at ho
      rw [hrows] at ho
      rcases mem_append.1 ho with ho | ho
      · exact (hi.durable o ho).trans (Nat.lt_succ_self _)
      · rw [mem_singleton.1 ho]
        exact Nat.lt_succ_self _
    · obtain ⟨o, ho, hid⟩ := hi.admitted g hg
      refine ⟨o, ?_, hid⟩
      change operations.find g.op = some o
      rw [find_insert hnew.inserted, if_neg]
      · exact ho
      · intro heq
        have hfresh := insert_fresh hnew.inserted
        rw [← heq, ho] at hfresh
        cases hfresh
    · change o ∈ operations.rows at ho
      rw [hrows] at ho
      rcases mem_append.1 ho with ho | ho
      · exact hi.resolved o ho tick htick
      · rw [mem_singleton.1 ho] at htick
        cases htick
  | @committed s clock a d ticks main bidtopid ptptstats generations payloads floors hauth hmoved
      hrec =>
      have hgen := insert_rows hrec.generations
      have hfresh := insert_fresh hrec.generations
      refine ⟨fun o ho => (hi.durable o ho).trans (Nat.lt_succ_self _), fun g hg => ?_, fun g hg => ?_,
        fun o ho tick htick => ?_, fun p hp => ?_⟩
      · change g ∈ generations.rows at hg
        rw [hgen] at hg
        unfold Database.complete
        rw [hrec.payloadsOf rfl]
        rcases mem_append.1 hg with hg | hg
        · rw [if_neg]
          · exact hi.complete g hg
          · rintro ⟨hconv, htick⟩
            obtain ⟨henv, hzid⟩ := Prod.mk.inj hconv
            refine find_eq_none.1 hfresh g hg ?_
            change (g.mathEnv, g.zid, g.mathTick) = _
            rw [henv, hzid, htick]
            rfl
        · rw [mem_singleton.1 hg, if_pos]
          · rfl
          · exact ⟨rfl, rfl⟩
      · change g ∈ generations.rows at hg
        rw [hgen] at hg
        rcases mem_append.1 hg with hg | hg
        · exact hi.admitted g hg
        · rw [mem_singleton.1 hg]
          obtain ⟨o, ho, -, howner, hepoch, hexpected, hcap, hcheck, -⟩ := hauth.admitted
          exact ⟨o, ho, howner.symm, hepoch.symm, hcap.symm, hexpected.symm, hcheck.symm⟩
      · obtain ⟨g, hg, hgt⟩ := hi.resolved o ho tick htick
        obtain ⟨hmem, hop⟩ := receipt_eq_some.1 hg
        refine ⟨g, receipt_eq_some.2 ⟨?_, hop⟩, hgt⟩
        change g ∈ generations.rows
        rw [hgen]
        exact mem_append_left _ hmem
      · change p ∈ payloads.rows at hp
        rw [hrec.payload_rows.1] at hp
        rcases mem_append.1 hp with hp | hp
        · exact hi.hashed p hp
        · simp only [mem_cons, not_mem_nil, or_false] at hp
          rcases hp with rfl | rfl | rfl
          · rfl
          · rfl
          · rfl
  | @cleaned s clock k g hrem =>
    obtain ⟨hgmem, hgop⟩ := receipt_eq_some.1 hrem.receipt
    have hkept : ∀ g' ∈ (db.cleaned k g).generations.rows, g' ∈ db.generations.rows ∧ g'.op ≠ k :=
      fun g' hg' => mem_deleteWhere.1 hg'
    refine ⟨fun o ho => ?_, fun g' hg' => ?_, fun g' hg' => ?_, fun o ho tick htick => ?_,
      fun p hp => ?_⟩
    · exact (hi.durable o (mem_of_mem_filter ho)).trans (Nat.lt_succ_self _)
    · obtain ⟨hmem, hne⟩ := hkept g' hg'
      have hcomplete := hi.complete g' hmem
      unfold Database.complete at hcomplete ⊢
      rw [← hcomplete]
      congr 1
      unfold Database.payloadsOf
      change List.filter _ (db.payloads.rows.filter _) = _
      rw [filter_filter]
      refine filter_congr fun p hp => ?_
      rw [Bool.and_eq_left_iff_imp]
      intro hat
      obtain ⟨hconv, htick⟩ := of_decide_eq_true hat
      simp only [decide_not, Bool.not_eq_true', decide_eq_false_iff_not]
      rintro ⟨hconv', htick'⟩
      apply hne
      have hconv₀ : g'.conv = g.conv := by
        rw [← hconv, hconv', ← hgop]
        rfl
      rw [generation_ext hmem hgmem hconv₀ (htick.symm.trans htick'), hgop]
    · obtain ⟨hmem, hne⟩ := hkept g' hg'
      obtain ⟨o, ho, hid⟩ := hi.admitted g' hmem
      refine ⟨o, ?_, hid⟩
      change (db.operations.delete k).find g'.op = some o
      rw [find_delete, if_neg hne]
      exact ho
    · obtain ⟨ho, hne⟩ := mem_filter.1 ho
      obtain ⟨g', hg', hgt⟩ := hi.resolved o ho tick htick
      obtain ⟨hmem, hop⟩ := receipt_eq_some.1 hg'
      refine ⟨g', receipt_eq_some.2 ⟨mem_deleteWhere.2 ⟨hmem, ?_⟩, hop⟩, hgt⟩
      intro hk
      exact of_decide_eq_true hne (hop.symm.trans hk)
    · exact hi.hashed p (mem_deleteWhere.1 hp).1

/-! ## Retention -/

/-- A receipt stays as it is until it is cleaned up. -/
theorem receipt_step (h : Step b db e db') {k : OpKey}
    (hg : db.receipt k = some g) (he : e.cleaned k = false) : db'.receipt k = some g := by
  cases h.effect with
  | quiet | damage | admitted | reconciled | protection => exact hg
  | transitioned _ hnew =>
    unfold Database.receipt
    rw [hnew.generations]
    exact hg
  | committed _ _ hrec =>
    obtain ⟨hmem, hop⟩ := receipt_eq_some.1 hg
    refine receipt_eq_some.2 ⟨?_, hop⟩
    rw [insert_rows hrec.generations]
    exact mem_append_left _ hmem
  | @cleaned s clock k' g' hrem =>
    obtain ⟨hmem, hop⟩ := receipt_eq_some.1 hg
    refine receipt_eq_some.2 ⟨mem_deleteWhere.2 ⟨hmem, fun hk => ?_⟩, hop⟩
    exact of_decide_eq_false he (hk.symm.trans hop)

/-- What an event that cleans an operation up leaves. -/
theorem Effect.of_cleaned (h : Effect b db e db') {k : OpKey} (he : e.cleaned k = true) :
    ∃ g, db' = { db.cleaned k g with xid := db.xid + 1 } := by
  cases h with
  | @quiet e _ _ _ hquiet _ _ =>
    unfold Event.cleaned at he
    split at he
    · cases hquiet
    · cases he
  | @cleaned s clock k' g hrem =>
    obtain rfl : k' = k := of_decide_eq_true he
    exact ⟨g, rfl⟩
  | _ => cases he

/-- A cleanup removes the receipt of its operation, and no other. -/
theorem cleaned_step (h : Step b db e db') {k : OpKey} (he : e.cleaned k = true)
    (hg : g ∈ db'.generations.rows) : g ∈ db.generations.rows ∧ g.op ≠ k := by
  obtain ⟨g', rfl⟩ := h.effect.of_cleaned he
  exact mem_deleteWhere.1 hg

/-- An operation stays until its cleanup, and only a readback or its protection changes the row. -/
theorem operation_step (h : Step b db e db') {k : OpKey} {o : OperationRow}
    (ho : db.operations.find k = some o) (he : e.cleaned k = false) :
    db'.operations.find k = some o ∨
      (∃ now, db'.operations.find k = some (o.reconciled (db.receipt k) now db.xid)) ∨
      ∃ isProtected, db'.operations.find k = some { o with isProtected, xmin := db.xid } := by
  cases h.effect with
  | quiet | damage | committed => exact .inl ho
  | transitioned _ hnew => exact .inl ((congrArg (find · k) hnew.operations).trans ho)
  | @admitted s clock a operations c hnew =>
    refine .inl ?_
    change operations.find k = some o
    rw [find_insert hnew.inserted, if_neg]
    · exact ho
    · intro hk
      have hfresh := insert_fresh hnew.inserted
      rw [← hk, ho] at hfresh
      cases hfresh
  | @reconciled s clock k' o' operations _ _ hupdate =>
    have hfind := find_updateOperation (k := k) hupdate fun _ => rfl
    split at hfind
    · next hk =>
        subst hk
        rw [ho] at hfind
        exact .inr (.inl ⟨_, hfind⟩)
    · exact .inl (hfind.trans ho)
  | @protection s clock k' isProtected operations hupdate =>
    have hfind := find_updateOperation (k := k) hupdate fun _ => rfl
    split at hfind
    · next hk =>
        rw [← hk, ho] at hfind
        exact .inr (.inr ⟨_, hfind⟩)
    · exact .inl (hfind.trans ho)
  | @cleaned s clock k' g hrem =>
    refine .inl ?_
    change (db.operations.delete k').find k = some o
    rw [find_delete, if_neg]
    · exact ho
    · intro hk
      exact of_decide_eq_false he hk.symm

/-- The generation at a tick is gone, and the floor has reached the tick. -/
structure Gone (db : Database) (k : ConvKey) (tick : ℤ) : Prop where
  floor : atLeast (db.floor k) tick
  absent : ∀ g ∈ db.generations.rows, g.conv = k → g.mathTick ≠ tick

theorem Gone.step {tick : ℤ} (hi : Gone db k tick) (h : Step b db e db') : Gone db' k tick := by
  refine ⟨atLeast_floor_step h hi.floor, fun g hg hk => ?_⟩
  cases h.effect with
  | quiet | damage | admitted | reconciled | protection => exact hi.absent g hg hk
  | cleaned _ => exact hi.absent g (mem_deleteWhere.1 hg).1 hk
  | transitioned _ hnew => exact hi.absent g (hnew.generations ▸ hg) hk
  | @committed s clock a _ _ _ _ _ _ _ _ _ _ hrec =>
    rw [insert_rows hrec.generations] at hg
    rcases mem_append.1 hg with hg | hg
    · exact hi.absent g hg hk
    · rw [mem_singleton.1 hg] at hk ⊢
      obtain rfl : a.conv = k := hk
      have hlt := lt_nextTick (atLeast_currentTick.2 (.inr (.inr hi.floor)))
      exact hlt.ne'

/-- A receipt is kept until its cleanup, after which its generation stays gone. -/
theorem receipt_run {es : List Event} {k : OpKey} (hg : db.receipt k = some g)
    (hfloor : atLeast (db.floor g.conv) g.mathTick) (h : Run (Step b) db es db') :
    (es.any (Event.cleaned k) = false ∧ db'.receipt k = some g ∧
      atLeast (db'.floor g.conv) g.mathTick) ∨
    (es.any (Event.cleaned k) = true ∧ Gone db' g.conv g.mathTick) := by
  apply h.invariant fun es d => (es.any (Event.cleaned k) = false ∧ d.receipt k = some g ∧
      atLeast (d.floor g.conv) g.mathTick) ∨
    (es.any (Event.cleaned k) = true ∧ Gone d g.conv g.mathTick)
  · exact .inl ⟨rfl, hg, hfloor⟩
  · rintro es d e d' - hi hstep
    rw [any_append, any_cons, any_nil, Bool.or_false]
    rcases hi with ⟨hnone, hd, hf⟩ | ⟨hsome, hgone⟩
    · rw [hnone, Bool.false_or]
      have hf' := atLeast_floor_step hstep hf
      cases he : e.cleaned k with
      | false => exact .inl ⟨rfl, receipt_step hstep hd he, hf'⟩
      | true =>
        refine .inr ⟨rfl, hf', fun g' hg' hk htick => ?_⟩
        obtain ⟨hmem, hop⟩ := receipt_eq_some.1 hd
        obtain ⟨hkept, hne⟩ := cleaned_step hstep he hg'
        exact hne (generation_ext hkept hmem hk htick ▸ hop)
    · rw [hsome, Bool.true_or]
      exact .inr ⟨rfl, hgone.step hstep⟩

theorem Inv.run {es : List Event} (h0 : Installed db) (h : Run (Step b) db es db') : Inv b db' :=
  h.keeps (Inv b) (.installed h0) fun _ _ _ hi hs => hi.step hs

end Polis.Coordinator
