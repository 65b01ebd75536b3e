import Polis.Participation.Numbering

/-!
# Numbers without gaps

Under the advisory locks the numbers of a conversation are `0 .. n-1` in every committed state. The
copied count is one too high exactly while the last participant proposed by a committed transaction was
one that already had a row.
-/

namespace Polis.Participation.Numbering

open List Option Locked

variable {h : List Proposal} {clause : ConflictClause} {c c' : Conversation}

/-! ## One row -/

/-- The numbers of the rows are `0 .. n-1`. -/
structure Dense (c : Conversation) : Prop where
  pids : c.participants.map (·.pid) = List.range c.participants.length
  tids : c.comments.map (·.tid) = List.range c.comments.length

/-- The count is that of the participants, if there is one. -/
def Counted (c : Conversation) : Prop :=
  1 ≤ c.participants.length → c.participant_count = c.participants.length

theorem int4_eq_some {n m : ℕ} (h : int4 n = some m) : m = n := by
  unfold int4 at h
  split at h
  · exact (Option.some.inj h).symm
  · cases h

theorem nextNumber_range {n m : ℕ} (h : nextNumber (List.range n) = some m) : m = n := by
  unfold nextNumber at h
  cases n with
  | zero => exact (Option.some.inj h).symm
  | succ n =>
    have hmax : (List.range (n + 1)).max? = some n :=
      max?_eq_some_iff.2 ⟨by simp, fun b hb => by simpa using Nat.lt_succ_iff.1 (by simpa using hb)⟩
    rw [hmax] at h
    exact int4_eq_some h

theorem stores_fresh {value stored : Bool}
    (h : clause.stores false value = some stored) : stored = !value := by
  unfold ConflictClause.stores at h
  cases clause with
  | raise => cases value <;> simp_all
  | doNothing target =>
    cases target with
    | none => simpa using h.symm
    | some target => cases target <;> cases value <;> simp_all

/-- A proposed participant leaves the count one above the number of rows that there were. -/
theorem insert_participant {uid : ℕ} (hc : Dense c)
    (h : insert c ⟨.participant uid, clause⟩ = some c') :
    c' = { c with
      participants := if taken c (.participant uid) then c.participants
        else c.participants ++ [⟨c.participants.length, uid⟩]
      participant_count := c.participants.length + 1 } := by
  simp only [insert, pid_auto, bind_eq_bind, bind_eq_some_iff, Option.pure_def,
    Option.some.injEq] at h
  obtain ⟨⟨pid, counted⟩, ⟨pid', hpid, count, hcount, heq⟩, stored, hstored, rfl⟩ := h
  obtain ⟨rfl, rfl⟩ := Prod.mk.inj heq
  rw [hc.pids] at hpid
  obtain rfl := nextNumber_range hpid
  obtain rfl := int4_eq_some hcount
  have hfresh : c.participants.any (·.pid = c.participants.length) = false := by
    rw [List.any_eq_false]
    intro p hp
    have hlt : p.pid ∈ List.range c.participants.length := hc.pids ▸ mem_map_of_mem hp
    simpa using (mem_range.1 hlt).ne
  rw [hfresh] at hstored
  rw [stores_fresh hstored]
  cases taken c (.participant uid) <;> rfl

theorem insert_comment {txt : String} (hc : Dense c)
    (h : insert c ⟨.comment txt, clause⟩ = some c') :
    c' = { c with
      comments := if taken c (.comment txt) then c.comments
        else c.comments ++ [⟨c.comments.length, txt⟩] } := by
  simp only [insert, tid_auto, Option.bind_eq_bind, Option.bind_eq_some_iff, Option.pure_def,
    Option.some.injEq] at h
  obtain ⟨tid, htid, stored, hstored, rfl⟩ := h
  rw [hc.tids] at htid
  obtain rfl := nextNumber_range htid
  have hfresh : c.comments.any (·.tid = c.comments.length) = false := by
    rw [List.any_eq_false]
    intro p hp
    have hlt : p.tid ∈ List.range c.comments.length := hc.tids ▸ mem_map_of_mem hp
    simpa using (mem_range.1 hlt).ne
  rw [hfresh] at hstored
  rw [stores_fresh hstored]
  cases taken c (.comment txt) <;> rfl

theorem Dense.insert {p : Proposal} (hc : Dense c)
    (h : insert c p = some c') : Dense c' := by
  obtain ⟨row, clause⟩ := p
  cases row with
  | participant uid =>
    rw [insert_participant hc h]
    refine ⟨?_, hc.tids⟩
    dsimp only
    split
    · exact hc.pids
    · simp [hc.pids, range_succ]
  | comment txt =>
    rw [insert_comment hc h]
    refine ⟨hc.pids, ?_⟩
    dsimp only
    split
    · exact hc.tids
    · simp [hc.tids, range_succ]

/-! ## The rows under one lock -/

/-- The last proposal was of a row that was there already. -/
def LastSkipped (h : List Proposal) : Prop :=
  ∃ before p, h = before ++ [p] ∧ taken (tablesOf before) p.row = true

theorem tables_snoc {p : Proposal} {c : Conversation}
    (hc : tables h = some c) : tables (h ++ [p]) = insert c p := by
  unfold tables at *
  rw [foldlM_append, hc]
  simp

/-- What a history under a lock leaves in the tables. -/
structure Replayed (h : List Proposal) (c : Conversation) : Prop where
  tables : tables h = some c
  dense : Dense c

theorem replayed {k : LockKey} (hserial : Serial (allowed k) h) :
    ∃ c, Replayed h c := by
  refine hserial.keeps (fun h => ∃ c, Replayed h c) ⟨.new, rfl, rfl, rfl⟩ ?_
  rintro h p - ⟨c, hc⟩ ⟨-, hsome⟩
  rw [hc.tables] at hsome
  obtain ⟨c', hc'⟩ := isSome_iff_exists.1 hsome
  exact ⟨c', (tables_snoc hc.tables).trans hc', hc.dense.insert hc'⟩

theorem tablesOf_replayed {c : Conversation} (hc : Replayed h c) :
    tablesOf h = c := by
  rw [tablesOf, hc.tables]
  rfl

theorem dense_tablesOf {k : LockKey} (hserial : Serial (allowed k) h) :
    Dense (tablesOf h) := by
  obtain ⟨c, hc⟩ := replayed hserial
  rw [tablesOf_replayed hc]
  exact hc.dense

/-- The count is exact unless the last proposal was skipped, and then it is not. -/
theorem counted_iff {zid : ℕ} (hserial : Serial (allowed (873791983, zid)) h) :
    Counted (tablesOf h) ↔ ¬LastSkipped h := by
  cases hserial with
  | nil =>
    refine iff_of_true (fun hpos => absurd hpos (by decide)) ?_
    rintro ⟨before, p, heq, -⟩
    simp at heq
  | @snoc h p hbefore hp =>
    obtain ⟨c, hc⟩ := replayed hbefore
    have hlast : LastSkipped (h ++ [p]) ↔ taken c p.row = true := by
      rw [← tablesOf_replayed hc]
      constructor
      · rintro ⟨before, q, heq, hq⟩
        obtain ⟨rfl, hpq⟩ := append_inj' heq rfl
        obtain rfl : p = q := by simpa using hpq
        exact hq
      · exact fun hq => ⟨h, p, rfl, hq⟩
    obtain ⟨hlock, hsome⟩ := hp
    rw [hc.tables] at hsome
    obtain ⟨c', hc'⟩ := isSome_iff_exists.1 hsome
    have hc'' : tablesOf (h ++ [p]) = c' := by
      rw [tablesOf, tables_snoc hc.tables, show insert c p = some c' from hc']
      rfl
    rw [hlast, hc'']
    obtain ⟨row, clause⟩ := p
    cases row with
    | comment txt => simp [NewRow.lock] at hlock
    | participant uid =>
      rw [insert_participant hc.dense hc']
      unfold Counted
      dsimp only
      split
      · next htaken =>
          -- The user's row is there, so that the count is above a positive number.
          have hpos : 1 ≤ c.participants.length := by
            obtain ⟨q, hq, -⟩ := any_eq_true.1 htaken
            exact length_pos_of_mem hq
          refine iff_of_false (fun hcount => ?_) (not_not_intro htaken)
          exact absurd (hcount hpos) (Nat.succ_ne_self _)
      · next htaken => exact iff_of_true (fun _ => by simp) htaken

/-! ## Every run -/

/-- The numbers of every conversation are `0 .. n-1` and its count is exact. -/
structure Numbered (s : Transactions) : Prop where
  dense : ∀ zid, Dense (committed s zid)
  counted : ∀ zid, Counted (committed s zid)

/-- The last participant that the transaction proposed in a conversation is not one that the tables
had already. -/
def EndsStored (s : Transactions) (t : ℕ) : Prop :=
  ∀ zid, s.pending t (873791983, zid) ≠ [] → ¬LastSkipped (s.view t (873791983, zid))

/-- A step that commits only transactions that end with a stored participant. -/
def StoringStep (s : Transactions) (e : Event) (s' : Transactions) : Prop :=
  Step s e s' ∧ ∀ t, e = .commit t → EndsStored s t

variable {s s' : Transactions} {es : List Event} {t : ℕ}

theorem dense_of_good (hs : Locked.Good allowed s) (zid : ℕ) : Dense (committed s zid) :=
  ⟨(dense_tablesOf (hs.serial _)).pids, (dense_tablesOf (hs.serial _)).tids⟩

theorem counted_committed_iff (hs : Locked.Good allowed s) (zid : ℕ) :
    Counted (committed s zid) ↔ ¬LastSkipped (s.committed (873791983, zid)) :=
  counted_iff (hs.serial _)

/-- A commit is the only step that changes what is committed. -/
theorem committed_eq {e : Event} (h : Step s e s') (he : ∀ t, e ≠ .commit t) :
    s'.committed = s.committed := by
  cases e with
  | lock t k => exact (step_lock h).2 ▸ rfl
  | write t k w => exact (step_write h).2.2 ▸ rfl
  | commit t => exact absurd rfl (he t)
  | rollback t => exact step_rollback h ▸ rfl

theorem storing_keeps {e : Event} (h : StoringStep s e s')
    (hs : ∀ zid, ¬LastSkipped (s.committed (873791983, zid))) :
    ∀ zid, ¬LastSkipped (s'.committed (873791983, zid)) := by
  intro zid
  by_cases he : ∃ t, e = .commit t
  · obtain ⟨t, rfl⟩ := he
    rw [step_commit h.1]
    by_cases hnil : s.pending t (873791983, zid) = []
    · simpa [view, hnil] using hs zid
    · exact h.2 t rfl zid hnil
  · rw [committed_eq h.1 fun t ht => he ⟨t, ht⟩]
    exact hs zid

/-- A commit that ends with a skipped participant leaves a count that is one too high. -/
theorem not_counted_of_commit (hs : Locked.Good allowed s) (h : Step s (.commit t) s')
    (hend : ¬EndsStored s t) : ∃ zid, ¬Counted (committed s' zid) := by
  simp only [EndsStored, not_forall, not_not] at hend
  obtain ⟨zid, -, hlast⟩ := hend
  refine ⟨zid, ?_⟩
  rw [counted_committed_iff (hs.step h), step_commit h]
  exact not_not_intro hlast

/-- The numbers of every conversation are `0 .. n-1`; its count is exact in every state of a run whose
commits end with stored participants, and a commit that does not makes it wrong. -/
theorem numbered (es : List Event) (s : Transactions) :
    (Run Step init es s → ∀ zid, Dense (committed s zid)) ∧ (Run StoringStep init es s → Numbered s) ∧
    ∀ t s', Run Step init es s → Step s (.commit t) s' → ¬EndsStored s t → ¬Numbered s' := by
  refine ⟨fun h => dense_of_good (good_of_run h), fun h => ?_, ?_⟩
  · have hgood : Locked.Good allowed s := good_of_run (h.mono fun _ _ _ hstep => hstep.1)
    have hlast : ∀ zid, ¬LastSkipped (s.committed (873791983, zid)) := by
      refine h.keeps (fun s => ∀ zid, ¬LastSkipped (s.committed (873791983, zid))) ?_ ?_
      · rintro zid ⟨before, p, heq, -⟩
        exact absurd heq (by simp [Locked.init])
      · exact fun _ _ _ hs hstep => storing_keeps hstep hs
    exact ⟨dense_of_good hgood, fun zid => (counted_committed_iff hgood zid).2 (hlast zid)⟩
  · intro t s' h hstep hend hnumbered
    obtain ⟨zid, hzid⟩ := not_counted_of_commit (good_of_run h) hstep hend
    exact hzid (hnumbered.counted zid)

/-- A user joins the conversation 7. -/
private def join (t uid : ℕ) (clause : ConflictClause) : List Event :=
  [.lock t (873791983, 7), .write t (873791983, 7) ⟨.participant uid, clause⟩, .commit t]

theorem numbered_join : ∃ s, Run StoringStep init (join 1 10 .raise) s ∧ Numbered s := by
  let k : LockKey := (873791983, 7)
  let p : Proposal := ⟨.participant 10, .raise⟩
  have hlock : StoringStep init (.lock 1 k) (init.take 1 k) :=
    ⟨lock_step (by decide), fun _ h => nomatch h⟩
  have hwrite : StoringStep (init.take 1 k) (.write 1 k p)
      ((init.take 1 k).add 1 k p) :=
    ⟨write_step (by decide) (by decide), fun _ h => nomatch h⟩
  have hend : EndsStored ((init.take 1 k).add 1 k p) 1 := by
    rintro zid hne ⟨before, q, heq, htaken⟩
    by_cases hzid : zid = 7
    · subst hzid
      obtain ⟨rfl, hq⟩ := append_inj' (show [] ++ [p] = before ++ [q] from heq) rfl
      obtain rfl : p = q := by simpa using hq
      exact absurd htaken (by decide)
    · exact hne (if_neg fun hk => hzid (Prod.mk.inj hk.2).2)
  have hcommit : StoringStep ((init.take 1 k).add 1 k p) (.commit 1) _ :=
    ⟨rfl, by rintro _ ⟨⟩; exact hend⟩
  have hrun := ((Run.nil.snoc hlock).snoc hwrite).snoc hcommit
  exact ⟨_, hrun, (numbered _ _).2.1 hrun⟩

/-- The importer's row is skipped for a user who has joined, and its transaction commits. -/
theorem not_numbered_after_skip : ∃ es s, Run Step init es s ∧ ¬Numbered s := by
  have hrun : ((join 1 10 .raise ++ join 2 10 (.doNothing (some .value))).foldlM
      (next allowed) init).map (fun s => committed s 7) = some ⟨[⟨0, 10⟩], [], 2⟩ := by
    decide
  obtain ⟨s, hs, hcommitted⟩ := map_eq_some_iff.1 hrun
  refine ⟨_, s, run_of_foldlM hs, fun hnumbered => ?_⟩
  have hcount := hnumbered.counted 7
  rw [hcommitted] at hcount
  exact absurd (hcount (by decide)) (by decide)

end Polis.Participation.Numbering
