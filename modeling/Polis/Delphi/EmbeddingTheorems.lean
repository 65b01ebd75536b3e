import Polis.Delphi.Embeddings
import Mathlib.Data.List.ReduceOption

/-!
# Closed embedding sets never change

Under the lock the sequence gives a scope's rows increasing numbers, also where other scopes, skipped
rows and rollbacks take numbers between them. So a row that is stored after a set was closed is above
its mark, and the set covers what it covered then until both are pruned.
-/

namespace Polis.Delphi.Embedding

open List Option Locked

variable {k : Scope} {batch : String} {dims : ℕ}

/-! ## Marks -/

section Marks

variable {ρ : Type*} {pos : ρ → ℕ} {rows more : List ρ} {n : ℕ}

theorem le_mark {r : ρ} (h : r ∈ rows) : pos r ≤ (rows.map pos).max?.getD 0 :=
  le_max?_getD_of_mem (mem_map_of_mem h)

theorem mark_lt (hn : 0 < n) (h : ∀ r ∈ rows, pos r < n) : (rows.map pos).max?.getD 0 < n := by
  cases hmax : (rows.map pos).max? with
  | none => exact hn
  | some m =>
    obtain ⟨r, hr, rfl⟩ := mem_map.1 (max?_mem hmax)
    exact h r hr

/-- Rows above the mark are not covered, and the others are. -/
theorem covered_append (h : ∀ r ∈ more, (rows.map pos).max?.getD 0 < pos r) :
    (rows ++ more).filter (pos · ≤ (rows.map pos).max?.getD 0) = rows := by
  have hold : rows.filter (pos · ≤ (rows.map pos).max?.getD 0) = rows :=
    filter_eq_self.2 fun r hr => decide_eq_true (le_mark hr)
  have hnew : more.filter (pos · ≤ (rows.map pos).max?.getD 0) = [] :=
    filter_eq_nil_iff.2 fun r hr => by simpa using h r hr
  rw [filter_append, hold, hnew, append_nil]

end Marks

/-! ## The history of a scope -/

/-- The row that a write stores. -/
def Write.row : Write → Option Row
  | .insert r => some r
  | _ => none

/-- The set that a write stores. -/
def Write.set : Write → Option EmbeddingSet
  | .close s => some s
  | _ => none

variable (sha256 : Bytes → Bytes)

/-- What a write is after the ones before it: a row of a new comment above every row before, a set of
what is stored, or a prune. -/
def Grows : Resource → List Write → Write → Prop
  | .batch _ _, _, _ => False
  | .scope _, h, .insert r =>
    0 < r.seq ∧ (∀ r' ∈ h.filterMap Write.row, r'.seq < r.seq) ∧
      ∀ r' ∈ (tablesAfter h).rows, r'.tid ≠ r.tid
  | .scope _, h, .close s =>
    s = closing sha256 s.batch_id (tablesAfter h) ∧ (tablesAfter h).set s.batch_id = none
  | .scope _, _, .prune => True

instance : ∀ k h, DecidablePred (Grows sha256 k h)
  | .batch _ _, _ => fun _ => isFalse id
  | .scope _, h => fun
    | .insert r => inferInstanceAs (Decidable (0 < r.seq ∧
        (∀ r' ∈ h.filterMap Write.row, r'.seq < r.seq) ∧ ∀ r' ∈ (tablesAfter h).rows, r'.tid ≠ r.tid))
    | .close s => inferInstanceAs (Decidable (s = closing sha256 s.batch_id (tablesAfter h) ∧
        (tablesAfter h).set s.batch_id = none))
    | .prune => isTrue trivial

variable {sha256} {h p q : List Write} {k : Scope} {s : EmbeddingSet}

@[simp] theorem tablesAfter_snoc (h : List Write) (x : Write) :
    tablesAfter (h ++ [x]) = (tablesAfter h).write x := by
  simp [tablesAfter]

theorem tablesAfter_append (hq : .prune ∉ q) : tablesAfter (h ++ q) =
    ⟨(tablesAfter h).rows ++ q.filterMap Write.row, (tablesAfter h).sets ++ q.filterMap Write.set⟩ := by
  induction q using List.reverseRecOn with
  | nil => simp
  | append_singleton q x ih =>
    rw [mem_append, not_or] at hq
    rw [← append_assoc, tablesAfter_snoc, ih hq.1]
    cases x with
    | insert | close => simp [Tables.write, Write.row, Write.set]
    | prune => exact absurd (by simp) hq.2

/-- What is stored was written. -/
theorem rows_subset (h : List Write) : (tablesAfter h).rows ⊆ h.filterMap Write.row := by
  induction h using List.reverseRecOn with
  | nil => exact nil_subset _
  | append_singleton h x ih =>
    rw [tablesAfter_snoc, filterMap_append]
    cases x with
    | insert r => exact append_subset.2 ⟨subset_append_of_subset_left _ ih, by simp [Write.row]⟩
    | close s => exact subset_append_of_subset_left _ ih
    | prune => exact nil_subset _

/-- A set that is there was closed, and nothing is pruned since. -/
theorem closed_of_mem (hs : s ∈ (tablesAfter h).sets) :
    ∃ p q, h = p ++ .close s :: q ∧ .prune ∉ q := by
  induction h using List.reverseRecOn with
  | nil => exact absurd hs (not_mem_nil)
  | append_singleton h x ih =>
    have hold : x ≠ .prune → s ∈ (tablesAfter h).sets → ∃ p q, h ++ [x] = p ++ .close s :: q ∧ .prune ∉ q := by
      intro hx hs
      obtain ⟨p, q, rfl, hq⟩ := ih hs
      refine ⟨p, q ++ [x], by simp, fun hmem => ?_⟩
      rcases mem_append.1 hmem with hmem | hmem
      · exact hq hmem
      · exact hx (mem_singleton.1 hmem).symm
    rw [tablesAfter_snoc] at hs
    cases x with
    | insert r => exact hold (by simp) hs
    | close s' =>
      rcases mem_append.1 hs with hs | hs
      · exact hold (by simp) hs
      · obtain rfl := mem_singleton.1 hs
        exact ⟨h, [], rfl, by simp⟩
    | prune => exact absurd hs (not_mem_nil)

/-- Comments and batches are stored once. -/
structure Unique (v : Tables) : Prop where
  rows : v.rows.Pairwise (·.tid ≠ ·.tid)
  sets : ∀ s ∈ v.sets, v.set s.batch_id = some s

theorem unique_of_serial (hserial : Serial (Grows sha256 (.scope k)) h) : Unique (tablesAfter h) := by
  refine hserial.keeps (fun h => Unique (tablesAfter h)) ⟨.nil, fun _ h => nomatch h⟩ ?_
  intro h x _ hunique hx
  rw [tablesAfter_snoc]
  cases x with
  | insert r =>
    refine ⟨pairwise_append.2 ⟨hunique.rows, pairwise_singleton _ _, ?_⟩, hunique.sets⟩
    intro r' hr' r'' hr''
    exact mem_singleton.1 hr'' ▸ hx.2.2 r' hr'
  | close s =>
    refine ⟨hunique.rows, fun s' hs' => ?_⟩
    have hfind : ∀ b, Tables.set ((tablesAfter h).write (.close s)) b =
        ((tablesAfter h).set b).or (if s.batch_id = b then some s else none) := by
      intro b
      simp only [Tables.set, Tables.write, find?_append, find?_cons, find?_nil]
      split <;> simp_all
    rw [hfind]
    rcases mem_append.1 hs' with hs' | hs'
    · rw [hunique.sets s' hs', some_or]
    · obtain rfl := mem_singleton.1 hs'
      rw [hx.2, none_or, if_pos rfl]
  | prune => exact ⟨.nil, fun _ h => nomatch h⟩

/-- Until a prune, a set covers what its close saw. -/
theorem covered_of_close (hserial : Serial (Grows sha256 (.scope k)) (p ++ .close s :: q))
    (hq : .prune ∉ q) : s ∈ (tablesAfter (p ++ .close s :: q)).sets ∧
      pd_embedding_rows (tablesAfter (p ++ .close s :: q)) s.batch_id =
        sortByStamp (·.tid) (tablesAfter p).rows := by
  have htables := tablesAfter_append (h := p) (q := .close s :: q) (by simpa using hq)
  have hs : s ∈ (tablesAfter (p ++ .close s :: q)).sets := by
    rw [htables]
    simp [Write.set]
  refine ⟨hs, ?_⟩
  have hmark : s.seq_mark = ((tablesAfter p).rows.map (·.seq)).max?.getD 0 := by
    rw [hserial.of_append.2.1]
    rfl
  have habove : ∀ r ∈ q.filterMap Write.row, s.seq_mark < r.seq := by
    intro r hr
    obtain ⟨x, hx, hrow⟩ := mem_filterMap.1 hr
    obtain ⟨q₁, q₂, rfl⟩ := append_of_mem hx
    cases x with
    | insert r' =>
      cases hrow
      rw [← cons_append, ← append_assoc] at hserial
      obtain ⟨-, hpos, habove, -⟩ := hserial.of_append
      rw [hmark]
      refine mark_lt hpos fun r'' hr'' => habove r'' ?_
      rw [filterMap_append]
      exact mem_append_left _ (rows_subset p hr'')
    | close s' => cases hrow
    | prune => cases hrow
  have hset := (unique_of_serial hserial).sets s hs
  rw [htables, filterMap_cons_none rfl] at hset ⊢
  rw [pd_embedding_rows, hset]
  dsimp only
  rw [hmark] at habove ⊢
  exact congrArg _ (covered_append habove)

/-- The columns of a set describe the rows. -/
structure Describes (sha256 : Bytes → Bytes) (s : EmbeddingSet) (rows : List Row) : Prop where
  row_count : s.row_count = rows.length
  max_tid : s.max_tid = (rows.map (·.tid)).max?
  content_sha : s.content_sha = contentSha sha256 rows

theorem max?_perm {l l' : List ℤ} (h : l.Perm l') : l.max? = l'.max? := by
  refine Option.ext fun m => ?_
  rw [max?_eq_some_iff, max?_eq_some_iff, h.mem_iff]
  simp only [h.mem_iff]

theorem describes_closing (batch : String) (v : Tables) :
    Describes sha256 (closing sha256 batch v) (sortByStamp (·.tid) v.rows) where
  row_count := (sortByStamp_perm v.rows).length_eq.symm
  max_tid := max?_perm ((sortByStamp_perm v.rows).map _).symm
  content_sha := by
    rw [contentSha, sortByStamp_eq_self (sortByStamp_pairwise v.rows)]
    rfl

/-! ## What a put proposes -/

theorem tids_sublist (g : ℕ → List Real4) (as : List (Option ℤ)) (bs : List (Option Bytes)) (n : ℕ) :
    List.Sublist ((((unnest as bs).zipIdx n).filterMap fun x => do
      pure (Proposal.mk (← x.1.1) (← x.1.2) (g x.2))).map (·.tid)) as.reduceOption := by
  induction as generalizing bs n with
  | nil =>
    have hnone : ((unnest [] bs).zipIdx n).filterMap (fun x => do
        pure (Proposal.mk (← x.1.1) (← x.1.2) (g x.2))) = [] := by
      refine filterMap_eq_nil_iff.2 fun x hx => ?_
      obtain ⟨b, -, hb⟩ := mem_map.1 (fst_mem_of_mem_zipIdx hx)
      rw [← hb]
      rfl
    rw [hnone]
    exact nil_sublist _
  | cons a as ih =>
    rw [unnest, zipIdx_cons]
    cases a with
    | none =>
      rw [filterMap_cons_none rfl]
      exact ih bs.tail (n + 1)
    | some a =>
      cases hb : bs.head?.join with
      | none =>
        rw [filterMap_cons_none rfl]
        exact (ih bs.tail (n + 1)).cons a
      | some b => exact (ih bs.tail (n + 1)).cons_cons a

theorem nodup_of_dedup_length {α : Type*} [DecidableEq α] {l : List α}
    (h : l.length ≤ l.dedup.length) : l.Nodup :=
  (l.dedup_sublist.eq_of_length_le h) ▸ l.nodup_dedup

/-- The comments of a put are distinct. -/
theorem proposals_nodup {tids : Option (SqlArray ℤ)} {shas : Option (SqlArray Bytes)}
    {embeddings : Option (SqlArray Real4)} {rows : List Proposal}
    (h : validRows dims tids shas embeddings = some rows) : (rows.map (·.tid)).Nodup := by
  obtain ⟨tids, rfl, htids⟩ := bind_eq_some_iff.1 h
  obtain ⟨shas, rfl, hshas⟩ := bind_eq_some_iff.1 htids
  obtain ⟨embeddings, rfl, hrows⟩ := bind_eq_some_iff.1 hshas
  split at hrows
  · cases hrows
  · next hvalid =>
      cases hrows
      have hdistinct : tids.elems.reduceOption.dedup.length = tids.cardinality := by
        simp only [Bool.or_eq_true, not_or] at hvalid
        simpa using hvalid.1.2
      have hnodup : tids.elems.reduceOption.Nodup := by
        refine nodup_of_dedup_length ?_
        rw [hdistinct]
        exact reduceOption_length_le _
      let vec := fun o => ((embeddings.elems.drop (o * dims)).take dims).reduceOption
      exact ((sortByStamp_perm _).map Proposal.tid).nodup_iff.2
        ((tids_sublist vec _ shas.elems 0).nodup hnodup)

/-! ## Transactions -/

namespace Store

variable {w w' : Store} {e : Event} {t u : ℕ} {es : List Event}

/-- The comment of a proposal is stored with its text. -/
def Stored (v : Tables) (p : Proposal) : Prop :=
  ∃ r ∈ v.rows, r.tid = p.tid ∧ r.text_sha = p.text_sha

/-- What holds of a transaction where it is: a call past the lock holds it, and what a put has proposed
is stored, with its text, and nothing of what it has yet to propose is stored with another. -/
def Placed (w : Store) (t : ℕ) : Phase → Prop
  | .locked k _ _ _ _ => w.db.holder (.scope k) = some t
  | .inserting k _ rows todo _ =>
    w.db.holder (.scope k) = some t ∧ (todo.map (·.tid)).Nodup ∧
      (∀ p ∈ rows, p ∈ todo ∨ Stored (w.view t k) p) ∧
        ∀ p ∈ todo, ∀ r ∈ (w.view t k).rows, r.tid = p.tid → r.text_sha = p.text_sha
  | _ => True

/-- What holds in every state. -/
structure Inv (sha256 : Bytes → Bytes) (w : Store) : Prop where
  good : Locked.Good (Grows sha256) w.db
  below : Locked.Writes (fun x => ∀ r ∈ x.row, r.seq ≤ w.seq) w.db
  placed : ∀ t, w.Placed t (w.phase t)

theorem lift_eq_some {es : List (Locked.Event Resource ℕ Write)} (h : w.lift es = some w') :
    ∃ db, Run (Locked.Step allowed) w.db es db ∧ w' = { w with db } := by
  obtain ⟨db, hdb, rfl⟩ := map_eq_some_iff.1 h
  exact ⟨db, run_of_foldlM hdb, rfl⟩

/-- What another transaction locks and sees stays. -/
theorem Placed.frame {p : Phase} (h : w.Placed t p) (hpending : w'.db.pending t = w.db.pending t)
    (hheld : ∀ k, w.db.holder k = some t →
      w'.db.holder k = some t ∧ w'.db.committed k = w.db.committed k) : w'.Placed t p := by
  cases p with
  | done | found | failed => exact trivial
  | locked k batch dims s req => exact (hheld _ h).1
  | inserting k batch rows todo added =>
    obtain ⟨hholder, hnodup, hproposed, htodo⟩ := h
    have hview : w'.view t k = w.view t k := by
      rw [view, view, Locked.view, Locked.view, hpending, (hheld _ hholder).2]
    exact ⟨(hheld _ hholder).1, hnodup, by rwa [hview], by rwa [hview]⟩

/-- A step of one transaction keeps what holds of the others. -/
theorem Inv.moved {es : List (Locked.Event Resource ℕ Write)} {db : Locked Resource ℕ Write}
    {p : Phase} {seq : ℕ} (hw : w.Inv sha256) (hseq : w.seq ≤ seq)
    (hrun : Run (Locked.Step (Grows sha256)) w.db es db) (hby : ∀ e ∈ es, e.transaction = t)
    (hnew : ∀ u k x, .write u k x ∈ es → ∀ r ∈ x.row, r.seq ≤ seq)
    (hplaced : Placed { w.put t p with db, seq } t p) : Inv sha256 { w.put t p with db, seq } where
  good := hw.good.run hrun
  below := (hw.below.imp fun x hx r hr => (hx r hr).trans hseq).run hrun hnew
  placed u := by
    dsimp only [put]
    split
    · next hu => exact hu ▸ hplaced
    · next hu =>
        obtain ⟨hpending, hheld⟩ := hw.good.run_other hrun hby hu
        exact (hw.placed u).frame hpending hheld

/-- A call raises. -/
theorem Inv.raise (hw : w.Inv sha256) (t : ℕ) {p : Phase} (hp : w.Placed t p) :
    Inv sha256 (w.put t p) :=
  hw.moved (le_refl _) .nil (by simp) (by simp) hp

/-- Events that store nothing follow the rule. -/
theorem grows_run {es : List (Locked.Event Resource ℕ Write)} {db db' : Locked Resource ℕ Write}
    (h : Run (Locked.Step allowed) db es db')
    (hes : ∀ u j x, .write u j x ∈ es → x = .prune) : Run (Locked.Step (Grows sha256)) db es db' := by
  induction h with
  | nil => exact .nil
  | @snoc es db₁ e db₂ hrun hstep ih =>
    refine (ih fun u j x hx => hes u j x (mem_append_left _ hx)).snoc ?_
    refine step_of_allowed (fun u j x he => ?_) hstep
    subst he
    obtain ⟨-, hallowed, -⟩ := step_write hstep
    obtain rfl := hes u j x (by simp)
    cases j with
    | batch => exact hallowed.elim
    | scope => exact trivial

/-- Locks, prunes and ends of transactions. -/
theorem Inv.lifted {es : List (Locked.Event Resource ℕ Write)} {p : Phase} (hw : w.Inv sha256)
    (h : (w.put t p).lift es = some w') (hby : ∀ e ∈ es, e.transaction = t)
    (hes : ∀ u j x, .write u j x ∈ es → x = .prune) (hplaced : w'.Placed t p) : w'.Inv sha256 := by
  obtain ⟨db, hrun, rfl⟩ := lift_eq_some h
  refine hw.moved (le_refl _) (grows_run hrun hes) hby (fun u j x hx r hr => ?_) hplaced
  rw [hes u j x hx] at hr
  cases hr

/-! ## One step -/

/-- The rest of a call once it has the lock. -/
theorem Inv.run {s : Option EmbeddingSet} {req : Request}
    (hw : w.Inv sha256) (hphase : w.phase t = .locked k batch dims s req)
    (h : w.run sha256 t k batch dims s req = some w') : w'.Inv sha256 := by
  have hholder : w.db.holder (.scope k) = some t := by
    have hplaced := hw.placed t
    rwa [hphase] at hplaced
  cases req with
  | put tids shas embeddings =>
    dsimp only [Store.run] at h
    split at h
    · exact Option.some.inj h ▸ hw.raise t trivial
    · split at h
      · exact Option.some.inj h ▸ hw.raise t trivial
      · next rows hrows =>
          split at h
          · exact Option.some.inj h ▸ hw.raise t trivial
          · next hconflicts =>
              refine Option.some.inj h ▸ hw.raise t ⟨hholder, proposals_nodup hrows, fun p hp => .inl hp, ?_⟩
              intro p hp r hr htid
              by_contra hsha
              refine hconflicts (any_eq_true.2 ⟨p, hp, any_eq_true.2 ⟨r, hr, ?_⟩⟩)
              simp [htid, hsha]
  | close =>
    cases s with
    | some s => exact Option.some.inj h ▸ hw.raise t trivial
    | none =>
      obtain ⟨db, hrun, rfl⟩ := lift_eq_some h
      have hstep := step_of_run hrun
      obtain ⟨-, hnone, -⟩ := step_write hstep
      have hgrows : Locked.Step (Grows sha256) w.db
          (.write t (.scope k) (.close (closing sha256 batch (w.view t k)))) db := by
        refine step_of_allowed (fun u j x hx => ?_) hstep
        cases hx
        exact ⟨rfl, hnone⟩
      refine hw.moved (le_refl _) (.snoc .nil hgrows) (by simp [Locked.Event.transaction]) ?_ trivial
      intro u j x hx
      cases mem_singleton.1 hx
      exact fun _ h => nomatch h

/-- The next row of an `INSERT`. -/
theorem Inv.insert {rows todo : List Proposal} {p : Proposal} {added : ℕ}
    (hw : w.Inv sha256) (hphase : w.phase t = .inserting k batch rows (p :: todo) added)
    (h : w.insert t k batch rows p todo added = some w') : w'.Inv sha256 := by
  have hplaced := hw.placed t
  rw [hphase] at hplaced
  obtain ⟨hholder, hnodup, hproposed, htodo⟩ := hplaced
  rw [map_cons, nodup_cons] at hnodup
  dsimp only [Store.insert] at h
  split at h
  · next hstored =>
      cases h
      refine hw.moved (Nat.le_succ _) .nil (by simp) (by simp) ⟨hholder, hnodup.2, fun p' hp' => ?_,
        fun p' hp' => htodo p' (mem_cons_of_mem _ hp')⟩
      rcases hproposed p' hp' with hmem | hmem
      · rcases mem_cons.1 hmem with rfl | hmem
        · obtain ⟨r, hr, htid⟩ := any_eq_true.1 hstored
          have htid : r.tid = p'.tid := of_decide_eq_true htid
          exact .inr ⟨r, hr, htid, htodo p' (by simp) r hr htid⟩
        · exact .inl hmem
      · exact .inr hmem
  · obtain ⟨db, hrun, rfl⟩ := lift_eq_some h
    have hstep := step_of_run hrun
    have hgrows : Locked.Step (Grows sha256) w.db (.write t (.scope k)
        (.insert ⟨p.tid, w.seq + 1, p.text_sha, p.embedding, batch⟩)) db := by
      obtain ⟨-, hnew, -⟩ := step_write hstep
      refine step_of_allowed (fun u j x hx => ?_) hstep
      cases hx
      refine ⟨Nat.succ_pos _, fun r hr => ?_, hnew⟩
      obtain ⟨x, hx, hrow⟩ := mem_filterMap.1 hr
      exact Nat.lt_succ_of_le (hw.below.view t _ x hx r hrow)
    have hview : ∀ w' : Store, w'.db = db → w'.view t k =
        (w.view t k).write (.insert ⟨p.tid, w.seq + 1, p.text_sha, p.embedding, batch⟩) := by
      intro w' hdb
      obtain ⟨-, -, hadd⟩ := step_write hstep
      rw [view, hdb, hadd, view_add, if_pos ⟨rfl, rfl⟩, tablesAfter_snoc]
      rfl
    refine hw.moved (Nat.le_succ _) (.snoc .nil hgrows) (by simp [Locked.Event.transaction]) ?_ ?_
    · intro u j x hx
      cases mem_singleton.1 hx
      intro r hr
      cases hr
      exact le_refl _
    · refine ⟨?_, hnodup.2, ?_, ?_⟩
      · exact (step_write hstep).2.2 ▸ hholder
      · rw [hview _ rfl]
        intro p' hp'
        rcases hproposed p' hp' with hmem | ⟨r, hr, hsame⟩
        · rcases mem_cons.1 hmem with rfl | hmem
          · exact .inr ⟨_, mem_append_right _ (mem_singleton_self _), rfl, rfl⟩
          · exact .inl hmem
        · exact .inr ⟨r, mem_append_left _ hr, hsame⟩
      · rw [hview _ rfl]
        intro p' hp' r hr htid
        rcases mem_append.1 hr with hr | hr
        · exact htodo p' (mem_cons_of_mem _ hp') r hr htid
        · -- The comments of a put are distinct.
          obtain rfl := mem_singleton.1 hr
          exact absurd (mem_map.2 ⟨p', hp', htid.symm⟩) hnodup.1

theorem Inv.step (hw : w.Inv sha256) (h : Step sha256 w e w') : w'.Inv sha256 := by
  cases e with
  | call t | prune t =>
    dsimp only [Step, next] at h
    split at h
    · split at h
      · exact Option.some.inj h ▸ hw.raise t trivial
      · exact hw.lifted h (by simp [Locked.Event.transaction]) (by simp) trivial
    · cases h
  | lock t =>
    dsimp only [Step, next] at h
    split at h
    · refine hw.lifted h (by simp [Locked.Event.transaction]) (by simp) ?_
      obtain ⟨db, hrun, rfl⟩ := lift_eq_some h
      obtain ⟨-, rfl⟩ := step_lock (step_of_run hrun)
      exact if_pos rfl
    · cases h
  | run t =>
    dsimp only [Step, next] at h
    split at h
    · next hphase => exact hw.run hphase h
    · cases h
  | insert t =>
    dsimp only [Step, next] at h
    split at h
    · next hphase => exact hw.insert hphase h
    · cases h
  | returned t =>
    dsimp only [Step, next] at h
    split at h
    · exact Option.some.inj h ▸ hw.raise t trivial
    · cases h
  | commit t =>
    dsimp only [Step, next] at h
    split at h
    · exact hw.lifted h (by simp [Locked.Event.transaction]) (by simp) trivial
    · cases h
  | rollback t => exact hw.lifted h (by simp [Locked.Event.transaction]) (by simp) trivial

theorem inv_init : Inv sha256 init where
  good := good_init
  below := writes_init
  placed _ := trivial

theorem inv_of_run (h : Run (Step sha256) init es w) : w.Inv sha256 :=
  h.keeps (Inv sha256) inv_init fun _ _ _ hw hstep => hw.step hstep

/-! ## Every run -/

/-- What is committed of a scope, or what a transaction sees of it. -/
def Seen (w : Store) (k : Scope) (h : List Write) : Prop :=
  h = w.db.committed (.scope k) ∨ ∃ t, h = w.db.view t (.scope k)

theorem Inv.serial {h : List Write} (hw : w.Inv sha256) (hseen : w.Seen k h) :
    Serial (Grows sha256 (.scope k)) h := by
  obtain rfl | ⟨t, rfl⟩ := hseen
  · exact hw.good.serial _
  · exact hw.good.serial_all t _

theorem put_db {p : Phase} (h : some (w.put t p) = some w') :
    ∃ es, Run (Locked.Step allowed) w.db es w'.db ∧ (∀ e ∈ es, e.transaction = t) ∧
      ∀ u, u ≠ t → w'.phase u = w.phase u := by
  cases h
  exact ⟨[], .nil, by simp, fun u hu => if_neg hu⟩

theorem lift_db {p : Phase} {es : List (Locked.Event Resource ℕ Write)}
    (h : (w.put t p).lift es = some w') (hby : ∀ e ∈ es, e.transaction = t) :
    ∃ es, Run (Locked.Step allowed) w.db es w'.db ∧ (∀ e ∈ es, e.transaction = t) ∧
      ∀ u, u ≠ t → w'.phase u = w.phase u := by
  obtain ⟨db, hrun, rfl⟩ := lift_eq_some h
  exact ⟨es, hrun, hby, fun u hu => if_neg hu⟩

/-- A step is of one transaction. -/
theorem step_db (h : Step sha256 w e w') :
    ∃ es, Run (Locked.Step allowed) w.db es w'.db ∧ (∀ e' ∈ es, e'.transaction = e.transaction) ∧
      ∀ u, u ≠ e.transaction → w'.phase u = w.phase u := by
  cases e with
  | call | prune =>
    dsimp only [Step, next] at h
    split at h
    · split at h
      · exact put_db h
      · exact lift_db h (by simp [Locked.Event.transaction, Event.transaction])
    · cases h
  | lock | commit =>
    dsimp only [Step, next] at h
    split at h
    · exact lift_db h (by simp [Locked.Event.transaction, Event.transaction])
    · cases h
  | run t =>
    dsimp only [Step, next] at h
    split at h
    · unfold Store.run at h
      split at h
      · split at h
        · exact put_db h
        · split at h
          · exact put_db h
          · split at h <;> exact put_db h
      · split at h
        · exact put_db h
        · exact lift_db h (by simp [Locked.Event.transaction, Event.transaction])
    · cases h
  | insert t =>
    dsimp only [Step, next] at h
    split at h
    · dsimp only [Store.insert] at h
      split at h
      · exact put_db (w := { w with seq := w.seq + 1 }) h
      · exact lift_db (w := { w with seq := w.seq + 1 }) h (by simp [Locked.Event.transaction, Event.transaction])
    · cases h
  | returned t =>
    dsimp only [Step, next] at h
    split at h
    · exact put_db h
    · cases h
  | rollback t => exact lift_db h (by simp [Locked.Event.transaction, Event.transaction])

/-- A scope's history only grows. -/
theorem run_grows (h : Run (Step sha256) w es w') (j : Resource) :
    w.db.committed j <+: w'.db.committed j := by
  refine h.keeps (fun w' => w.db.committed j <+: w'.db.committed j) prefix_rfl ?_
  intro w₁ e w₂ hprefix hstep
  obtain ⟨es, hrun, -, -⟩ := step_db hstep
  exact hprefix.trans (Locked.run_grows hrun j)

theorem Grows.allowed {j : Resource} {h : List Write} {x : Write} (hx : Grows sha256 j h x) :
    allowed j h x := by
  cases j with
  | batch => exact hx.elim
  | scope k =>
    cases x with
    | insert r => exact hx.2.2
    | close s => exact hx.2
    | prune => exact trivial

/-- Another transaction's step leaves what this one holds. -/
theorem Inv.step_other (hw : w.Inv sha256) (h : Step sha256 w e w')
    (ht : t ≠ e.transaction) (hholder : w.db.holder (.scope k) = some t) :
    w'.db.holder (.scope k) = some t ∧ w'.view t k = w.view t k ∧ w'.phase t = w.phase t := by
  obtain ⟨es, hrun, hby, hphase⟩ := step_db h
  obtain ⟨hpending, hheld⟩ := (hw.good.mono fun _ _ _ => Grows.allowed).run_other hrun hby ht
  obtain ⟨hholder', hcommitted⟩ := hheld _ hholder
  exact ⟨hholder', by rw [view, view, Locked.view, Locked.view, hpending, hcommitted], hphase t ht⟩

/-- Proposing rows that are stored changes nothing. -/
theorem Inv.repeated {rows todo : List Proposal} {added : ℕ}
    (hw : w.Inv sha256) (hphase : w.phase t = .inserting k batch rows todo added)
    (hstored : ∀ p ∈ todo, Stored (w.view t k) p) (h : Run (Step sha256) w es w')
    (hes : ∀ e ∈ es, e.transaction = t → e = .insert t) :
    w'.view t k = w.view t k ∧ ∃ todo', w'.phase t = .inserting k batch rows todo' added := by
  have hrun : w'.Inv sha256 ∧ w'.view t k = w.view t k ∧
      ∃ todo', w'.phase t = .inserting k batch rows todo' added ∧ todo' ⊆ todo := by
    induction h with
    | nil => exact ⟨hw, rfl, todo, hphase, List.Subset.refl _⟩
    | @snoc es w₁ e w₂ _ hstep ih =>
      obtain ⟨hw₁, hview, todo', hphase', hsub⟩ := ih fun e he => hes e (mem_append_left _ he)
      refine ⟨hw₁.step hstep, ?_⟩
      have hholder : w₁.db.holder (.scope k) = some t := by
        have hplaced := hw₁.placed t
        rw [hphase'] at hplaced
        exact hplaced.1
      by_cases ht : t = e.transaction
      · obtain rfl := hes e (by simp) ht.symm
        dsimp only [Step, next] at hstep
        rw [hphase'] at hstep
        cases todo' with
        | nil => cases hstep
        | cons p todo' =>
          obtain ⟨r, hr, htid, -⟩ := hstored p (hsub (by simp))
          have hany : (w₁.view t k).rows.any (·.tid = p.tid) = true := by
            rw [hview]
            exact any_eq_true.2 ⟨r, hr, decide_eq_true htid⟩
          dsimp only [Store.insert] at hstep
          rw [if_pos hany] at hstep
          cases hstep
          exact ⟨hview, todo', if_pos rfl, fun p' hp' => hsub (mem_cons_of_mem _ hp')⟩
      · obtain ⟨-, hview', hsame⟩ := hw₁.step_other hstep ht hholder
        exact ⟨hview'.trans hview, todo', hsame.trans hphase', hsub⟩
  obtain ⟨-, hview, todo', hphase', -⟩ := hrun
  exact ⟨hview, todo', hphase'⟩

/-- A call that has raised can only be rolled back. -/
theorem failed_step {m : String} (hphase : w.phase t = .failed m) (h : Step sha256 w e w')
    (ht : e.transaction = t) : e = .rollback t ∧ w'.db.committed = w.db.committed := by
  cases e with
  | rollback u =>
    obtain rfl : u = t := ht
    obtain ⟨db, hrun, rfl⟩ := lift_eq_some h
    refine ⟨rfl, ?_⟩
    rw [step_rollback (step_of_run hrun)]
    rfl
  | call u | lock u | run u | insert u | returned u | prune u | commit u =>
    obtain rfl : u = t := ht
    dsimp only [Step, next] at h
    rw [hphase] at h
    cases h

/-- A text that conflicts refuses the whole call. -/
theorem run_conflict {s : Option EmbeddingSet}
    {tids : Option (SqlArray ℤ)} {shas : Option (SqlArray Bytes)} {embeddings : Option (SqlArray Real4)}
    {rows : List Proposal} (hphase : w.phase t = .locked k batch dims s (.put tids shas embeddings))
    (hrows : validRows dims tids shas embeddings = some rows)
    (hconflicts : conflicts (w.view t k) rows = true) (h : Step sha256 w (.run t) w') :
    w'.db = w.db ∧ ∃ m, w'.phase t = .failed m := by
  dsimp only [Step, next] at h
  rw [hphase] at h
  dsimp only [Store.run] at h
  rw [hrows] at h
  dsimp only at h
  rw [if_pos hconflicts] at h
  split at h <;> exact Option.some.inj h ▸ ⟨rfl, _, if_pos rfl⟩

/-- A close inserts the set of what is stored. -/
theorem run_close
    (hphase : w.phase t = .locked k batch dims none .close) (h : Step sha256 w (.run t) w') :
    ∃ s, w'.phase t = .done (some (.close s)) ∧ s = closing sha256 batch (w.view t k) ∧
      w'.db.view t (.scope k) = w.db.view t (.scope k) ++ [.close s] := by
  dsimp only [Step, next] at h
  rw [hphase] at h
  obtain ⟨db, hrun, rfl⟩ := lift_eq_some h
  obtain ⟨-, -, hadd⟩ := step_write (step_of_run hrun)
  refine ⟨_, if_pos rfl, rfl, ?_⟩
  dsimp only
  rw [hadd, view_add, if_pos ⟨rfl, rfl⟩]
  rfl

/-- A close of a set that is there returns it. -/
theorem run_reclose {s : EmbeddingSet}
    (hphase : w.phase t = .locked k batch dims (some s) .close) (h : Step sha256 w (.run t) w') :
    w'.db = w.db ∧ w'.phase t = .done (some (.close s)) := by
  dsimp only [Step, next] at h
  rw [hphase] at h
  exact Option.some.inj h ▸ ⟨rfl, if_pos rfl⟩

/-- A set that is there is found again. -/
theorem call_close {c : Call} {s : EmbeddingSet} (hw : w.Inv sha256)
    (hs : s ∈ (w.view t k).sets) (h : Step sha256 w (.call t k s.batch_id c .close) w') :
    (∃ m, w'.phase t = .failed m) ∨ ∃ dims, w'.phase t = .found k s.batch_id dims (some s) .close := by
  have hset := (unique_of_serial (hw.serial (.inr ⟨t, rfl⟩))).sets s hs
  dsimp only [Step, next] at h
  split at h
  · rw [view, hset] at h
    split at h
    · exact Option.some.inj h ▸ .inl ⟨_, if_pos rfl⟩
    · obtain ⟨db, -, rfl⟩ := lift_eq_some h
      exact .inr ⟨_, if_pos rfl⟩
  · cases h

/-- Whatever is committed or seen of a scope, also in between the statements of its puts and closes,
each set that is not pruned covers exactly the rows that its close saw, its columns describe them, and
each comment has one row. Later states keep rows and sets with what they cover, except for a prune. A
put with a text that conflicts adds nothing, one whose rows are stored changes nothing, and a close
again returns the set and changes nothing. -/
theorem closed_sets_never_change (sha256 : Bytes → Bytes) (es : List Event) (w : Store)
    (h : Run (Step sha256) init es w) :
    (∀ k l, w.Seen k l → (tablesAfter l).rows.Pairwise (·.tid ≠ ·.tid) ∧
      ∀ s ∈ (tablesAfter l).sets, ∃ p q, l = p ++ .close s :: q ∧ .prune ∉ q ∧
        s = closing sha256 s.batch_id (tablesAfter p) ∧
        pd_embedding_rows (tablesAfter l) s.batch_id = sortByStamp (·.tid) (tablesAfter p).rows ∧
        Describes sha256 s (pd_embedding_rows (tablesAfter l) s.batch_id)) ∧
      (∀ es' w', Run (Step sha256) w es' w' → ∀ k, ∃ q,
        w'.db.committed (.scope k) = w.db.committed (.scope k) ++ q ∧
          (.prune ∉ q → (w.committed k).rows ⊆ (w'.committed k).rows ∧
            (w.committed k).sets ⊆ (w'.committed k).sets ∧ ∀ s ∈ (w.committed k).sets,
              pd_embedding_rows (w'.committed k) s.batch_id =
                pd_embedding_rows (w.committed k) s.batch_id)) ∧
      (∀ t k batch dims s tids shas embeddings rows w',
        w.phase t = .locked k batch dims s (.put tids shas embeddings) →
          validRows dims tids shas embeddings = some rows → conflicts (w.view t k) rows = true →
            Step sha256 w (.run t) w' → w'.db = w.db ∧ ∃ m, w'.phase t = .failed m) ∧
      (∀ t m e w', w.phase t = .failed m → Step sha256 w e w' → e.transaction = t →
        e = .rollback t ∧ w'.db.committed = w.db.committed) ∧
      (∀ t k batch rows added w', w.phase t = .inserting k batch rows [] added →
        Step sha256 w (.returned t) w' → ∀ p ∈ rows, Stored (w'.view t k) p) ∧
      (∀ t k batch rows todo added es' w', w.phase t = .inserting k batch rows todo added →
        (∀ p ∈ todo, Stored (w.view t k) p) → Run (Step sha256) w es' w' →
          (∀ e ∈ es', e.transaction = t → e = .insert t) →
            w'.view t k = w.view t k ∧ ∃ todo', w'.phase t = .inserting k batch rows todo' added) ∧
      (∀ t k batch dims w', w.phase t = .locked k batch dims none .close → Step sha256 w (.run t) w' →
        ∃ s, w'.phase t = .done (some (.close s)) ∧ s = closing sha256 batch (w.view t k) ∧
          w'.db.view t (.scope k) = w.db.view t (.scope k) ++ [.close s]) ∧
      (∀ t k batch dims s w', w.phase t = .locked k batch dims (some s) .close →
        Step sha256 w (.run t) w' → w'.db = w.db ∧ w'.phase t = .done (some (.close s))) ∧
      ∀ t k c s w', s ∈ (w.view t k).sets → Step sha256 w (.call t k s.batch_id c .close) w' →
        (∃ m, w'.phase t = .failed m) ∨
          ∃ dims, w'.phase t = .found k s.batch_id dims (some s) .close := by
  have hw := inv_of_run h
  refine ⟨fun k l hseen => ?_, fun es' w' hrun k => ?_, ?_, ?_, ?_, ?_, ?_, ?_, ?_⟩
  · have hserial := hw.serial hseen
    refine ⟨(unique_of_serial hserial).rows, fun s hs => ?_⟩
    obtain ⟨p, q, rfl, hq⟩ := closed_of_mem hs
    obtain ⟨-, hcovered⟩ := covered_of_close hserial hq
    have hclosing : s = closing sha256 s.batch_id (tablesAfter p) := hserial.of_append.2.1
    refine ⟨p, q, rfl, hq, hclosing, hcovered, ?_⟩
    rw [hcovered, hclosing]
    exact describes_closing _ _
  · obtain ⟨q, hq⟩ := run_grows hrun (.scope k)
    refine ⟨q, hq.symm, fun hprune => ?_⟩
    have htables : w'.committed k = ⟨(w.committed k).rows ++ q.filterMap Write.row,
        (w.committed k).sets ++ q.filterMap Write.set⟩ := by
      rw [committed, ← hq, tablesAfter_append hprune, committed]
    refine ⟨by rw [htables]; exact subset_append_left _ _,
      by rw [htables]; exact subset_append_left _ _, fun s hs => ?_⟩
    obtain ⟨p, q', hp, hq'⟩ := closed_of_mem hs
    have hw' := inv_of_run (h.append hrun)
    have hserial := hw.serial (k := k) (.inl rfl)
    have hserial' := hw'.serial (k := k) (.inl rfl)
    rw [committed, committed, ← hq]
    rw [← hq] at hserial'
    rw [hp] at hserial hserial' ⊢
    rw [append_assoc, cons_append] at hserial' ⊢
    have hnone : .prune ∉ q' ++ q := by
      rw [mem_append, not_or]
      exact ⟨hq', hprune⟩
    rw [(covered_of_close hserial hq').2, (covered_of_close hserial' hnone).2]
  · exact fun t k batch dims s tids shas embeddings rows w' => run_conflict
  · exact fun t m e w' => failed_step
  · intro t k batch rows added w' hphase hstep p hp
    have hplaced := hw.placed t
    rw [hphase] at hplaced
    obtain ⟨-, -, hproposed, -⟩ := hplaced
    dsimp only [Step, next] at hstep
    rw [hphase] at hstep
    cases hstep
    exact (hproposed p hp).resolve_left (not_mem_nil)
  · exact fun t k batch rows todo added es' w' hphase hstored hrun hes =>
      hw.repeated hphase hstored hrun hes
  · exact fun t k batch dims w' => run_close
  · exact fun t k batch dims s w' => run_reclose
  · exact fun t k c s w' => call_close hw

/-- The arguments of a put of comments with one embedding of one number. -/
private def putOf (tids : List ℤ) (sha : Bytes) : Request :=
  .put (some ⟨[(1, tids.length)], tids.map some, by simp⟩)
    (some ⟨[(1, tids.length)], tids.map fun _ => some sha, by simp⟩)
    (some ⟨[(1, tids.length), (1, 1)], tids.map fun _ => some 0x3f800000, by simp⟩)

/-- A call that finds its job and its batch. -/
private def owned : Call := ⟨true, true, some 1, true, false⟩

private def scope : Scope := ⟨"prod", 1, "sentence-transformers/all-MiniLM-L6-v2"⟩

/-- Comment 7 is embedded and the set closed; then a put repeats 7 and adds 9. -/
private def embedded (sha : Bytes) : List Event :=
  [.call 0 scope "b0" owned (putOf [7] sha), .lock 0, .run 0, .insert 0, .returned 0,
    .call 0 scope "b0" owned .close, .lock 0, .run 0, .commit 0,
    .call 1 scope "b1" owned (putOf [9, 7] sha), .lock 1, .run 1, .insert 1, .insert 1, .returned 1,
    .commit 1]

/-- The digest of the embedding, and of the line of its comment. -/
private def digests (bytes : Bytes) : Bytes :=
  if bytes = array_send [0x3f800000] then
    [54, 176, 226, 50, 26, 140, 78, 33, 195, 9, 40, 65, 156, 207, 60, 107, 34, 28, 182, 27, 233, 90,
      224, 40, 66, 167, 79, 246, 14, 81, 97, 249]
  else
    [242, 237, 23, 232, 124, 89, 231, 133, 164, 150, 4, 3, 130, 243, 65, 0, 117, 143, 26, 105, 42,
      172, 145, 62, 237, 126, 242, 243, 225, 209, 246, 6]

theorem closed_sets_never_change_embedded :
    ∃ w s, Run (Step digests) init (embedded (.replicate 32 7)) w ∧ s ∈ (w.committed scope).sets ∧
      (w.committed scope).rows.map (fun r => (r.tid, r.seq)) = [(7, 1), (9, 3)] ∧
      (pd_embedding_rows (w.committed scope) s.batch_id).map (·.tid) = [7] ∧
      Describes digests s (pd_embedding_rows (w.committed scope) s.batch_id) := by
  let final := (embedded (.replicate 32 7)).foldlM (next digests) init
  have hsome : final.isSome := by decide +kernel
  have hset : final.bind (fun w => (w.committed scope).sets.head?.map (·.batch_id)) = some "b0" := by
    decide +kernel
  have hrows : final.map (fun w => (w.committed scope).rows.map fun r => (r.tid, r.seq)) =
      some [(7, 1), (9, 3)] := by decide +kernel
  have hcovered : final.map (fun w => (pd_embedding_rows (w.committed scope) "b0").map (·.tid)) =
      some [7] := by decide +kernel
  obtain ⟨w, hw⟩ := isSome_iff_exists.1 hsome
  rw [hw] at hrows hcovered
  rw [hw, bind_some] at hset
  obtain ⟨s, hs, hbatch⟩ := map_eq_some_iff.1 hset
  have hmem : s ∈ (w.committed scope).sets := mem_of_mem_head? hs
  have hrun : Run (Step digests) init (embedded (.replicate 32 7)) w := run_of_foldlM hw
  obtain ⟨hseen, -⟩ := closed_sets_never_change digests _ w hrun
  obtain ⟨-, hsets⟩ := hseen scope _ (.inl rfl)
  obtain ⟨_, _, _, _, _, _, hdescribes⟩ := hsets s hmem
  refine ⟨w, s, hrun, hmem, Option.some.inj hrows, ?_, hdescribes⟩
  rw [hbatch]
  exact Option.some.inj hcovered

end Store

end Polis.Delphi.Embedding
