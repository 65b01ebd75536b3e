import Polis.Participation.Votes

/-!
# The latest choice and the history

The latest choice of a key is the vote whose rule ran last. Where each vote is newer than those that it
sees, this is the newest row of the history, and the choice that the engine keeps.
-/

namespace Polis.Participation

open List Function Option

/-! ## Events over the locked transactions -/

namespace VoteState

variable {s s' : VoteState} {e : VoteEvent}

/-- The event of the transactions underneath. -/
inductive Under (s : VoteState) : VoteEvent → Option (Locked.Event VoteKey ℕ VoteWrite) → Prop
  | begin (t : ℕ) (now : ℤ) : Under s (.begin t now) none
  | lock (t : ℕ) (k : VoteKey) : Under s (.lock t k) (some (.lock t k))
  | provisional (t : ℕ) (k : VoteKey) (vote now : ℤ) :
      Under s (.provisional t k vote) (some (.write t k (.provisional vote now)))
  | insert (t : ℕ) (k : VoteKey) (vote weight : ℤ) (high_priority : Bool) :
      Under s (.insert t k vote weight high_priority) none
  | rule (t : ℕ) {k : VoteKey} {row : VoteRow} {rest : List (VoteKey × VoteRow)} :
      s.staged t = (k, row) :: rest → Under s (.rule t) (some (.write t k (.insert row)))
  | commit (t : ℕ) : Under s (.commit t) (some (.commit t))
  | rollback (t : ℕ) : Under s (.rollback t) (some (.rollback t))

/-- A step leaves the transactions underneath alone or is one of theirs. -/
theorem step_under (h : Step s e s') :
    (Under s e none ∧ s'.db = s.db) ∨
    ∃ e', Under s e (some e') ∧ Locked.Step allowed s.db e' s'.db := by
  have hlift : ∀ {s₁ : VoteState} {e' : Locked.Event VoteKey ℕ VoteWrite},
      s₁.lift e' = some s' → s₁.db = s.db → Locked.Step allowed s.db e' s'.db := by
    intro s₁ e' hs hdb
    obtain ⟨db, hnext, rfl⟩ := map_eq_some_iff.1 hs
    rwa [hdb] at hnext
  unfold Step at h
  cases e with
  | begin t now =>
    dsimp only [next] at h
    split at h
    · cases h
      exact .inl ⟨.begin t now, rfl⟩
    · cases h
  | lock t k =>
    dsimp only [next] at h
    split at h
    · cases h
    · exact .inr ⟨_, .lock t k, hlift h rfl⟩
  | provisional t k vote =>
    dsimp only [next] at h
    split at h
    · cases h
    · split at h
      · exact .inr ⟨_, .provisional t k vote _, hlift h rfl⟩
      · cases h
  | insert t k vote weight high_priority =>
    dsimp only [next] at h
    split at h
    · cases h
    · cases h
      exact .inl ⟨.insert t k vote weight high_priority, rfl⟩
  | rule t =>
    dsimp only [next] at h
    split at h
    · cases h
    · next hstaged => exact .inr ⟨_, .rule t hstaged, hlift h rfl⟩
  | commit t =>
    dsimp only [next] at h
    split at h
    · exact .inr ⟨_, .commit t, hlift h rfl⟩
    · cases h
  | rollback t => exact .inr ⟨_, .rollback t, hlift h rfl⟩

/-- Only the transaction that a provisional row belongs to ends with it, and none is committed so. -/
structure Settled (s : VoteState) : Prop where
  good : Locked.Good allowed s.db
  pending : ∀ t k vote now, (s.db.pending t k).getLast? = some (.provisional vote now) →
    s.provisional t = some k
  committed : ∀ k vote now, (s.db.committed k).getLast? ≠ some (.provisional vote now)

theorem lift_eq_some {e' : Locked.Event VoteKey ℕ VoteWrite} (h : s.lift e' = some s') :
    ∃ db, Locked.Step allowed s.db e' db ∧ s' = { s with db } := by
  obtain ⟨db, hdb, rfl⟩ := map_eq_some_iff.1 h
  exact ⟨db, hdb, rfl⟩

theorem pending_add {db : Locked VoteKey ℕ VoteWrite} {t u : ℕ} {j k : VoteKey} {w v : VoteWrite}
    (h : ((db.add t k w).pending u j).getLast? = some v) :
    (u = t ∧ j = k ∧ v = w) ∨ ((db.pending u j).getLast? = some v ∧ ¬(u = t ∧ j = k)) := by
  dsimp only [Locked.add] at h
  split at h
  · next heq => exact .inl ⟨heq.1, heq.2, by simpa using h.symm⟩
  · next hne => exact .inr ⟨h, hne⟩

/-- What is left of a transaction that ends without a provisional row. -/
theorem Settled.finish (hs : Settled s) {t : ℕ} {db : Locked VoteKey ℕ VoteWrite}
    (hgood : Locked.Good allowed db) (hpending : db.pending = (s.db.drop t).pending)
    (hcommitted : ∀ k vote now, (db.committed k).getLast? ≠ some (.provisional vote now)) :
    Settled { s.finish t with db } := by
  refine ⟨hgood, fun u k vote now hlast => ?_, hcommitted⟩
  have hlast' : ((s.db.drop t).pending u k).getLast? = some (.provisional vote now) := by
    rw [← hpending]
    exact hlast
  dsimp only [Locked.drop] at hlast'
  split at hlast'
  · simp at hlast'
  · next hu => exact (if_neg hu).trans (hs.pending u k vote now hlast')

theorem Settled.step (hs : Settled s) (h : Step s e s') : Settled s' := by
  unfold Step at h
  cases e with
  | begin t now =>
    dsimp only [next] at h
    split at h
    · cases h
      exact ⟨hs.good, hs.pending, hs.committed⟩
    · cases h
  | lock t k =>
    dsimp only [next] at h
    split at h
    · cases h
    · obtain ⟨db, hdb, rfl⟩ := lift_eq_some h
      have hgood := hs.good.step hdb
      obtain ⟨-, rfl⟩ := Locked.step_lock hdb
      exact ⟨hgood, hs.pending, hs.committed⟩
  | provisional t k vote =>
    dsimp only [next] at h
    split at h
    · cases h
    · split at h
      · next hnone =>
          obtain ⟨db, hdb, rfl⟩ := lift_eq_some h
          have hgood : Locked.Good allowed db := Locked.Good.step hs.good hdb
          obtain ⟨-, -, rfl⟩ := Locked.step_write hdb
          refine ⟨hgood, fun u j v n hlast => ?_, hs.committed⟩
          rcases pending_add hlast with ⟨rfl, rfl, -⟩ | ⟨hlast, -⟩
          · exact if_pos rfl
          · have hprov := hs.pending u j v n hlast
            refine (if_neg ?_).trans hprov
            rintro rfl
            rw [hnone] at hprov
            cases hprov
      · cases h
  | insert t k vote weight high_priority =>
    dsimp only [next] at h
    split at h
    · cases h
    · cases h
      exact ⟨hs.good, hs.pending, hs.committed⟩
  | rule t =>
    dsimp only [next] at h
    split at h
    · cases h
    · next k row rest hstaged =>
        obtain ⟨db, hdb, rfl⟩ := lift_eq_some h
        have hgood : Locked.Good allowed db := Locked.Good.step hs.good hdb
        obtain ⟨-, -, rfl⟩ := Locked.step_write hdb
        refine ⟨hgood, fun u j v n hlast => ?_, hs.committed⟩
        rcases pending_add hlast with ⟨-, -, hw⟩ | ⟨hlast, hne⟩
        · cases hw
        · have hprov := hs.pending u j v n hlast
          dsimp only
          split
          · next hk =>
              dsimp only [set]
              rw [if_neg]
              · exact hprov
              · rintro rfl
                exact hne ⟨rfl, Option.some.inj (hprov.symm.trans hk)⟩
          · exact hprov
  | commit t =>
    dsimp only [next] at h
    split at h
    · next hdone =>
        obtain ⟨db, hdb, rfl⟩ := lift_eq_some h
        have hgood : Locked.Good allowed db := Locked.Good.step hs.good hdb
        obtain rfl := Locked.step_commit hdb
        refine hs.finish hgood rfl fun k vote now hlast => ?_
        have hlast' : (s.db.committed k ++ s.db.pending t k).getLast? =
            some (.provisional vote now) := hlast
        rw [getLast?_append] at hlast'
        cases hp : (s.db.pending t k).getLast? with
        | none =>
          rw [hp] at hlast'
          exact hs.committed k vote now hlast'
        | some w =>
          rw [hp] at hlast'
          obtain rfl : w = .provisional vote now := by simpa using hlast'
          have := hs.pending t k vote now hp
          rw [hdone.2] at this
          cases this
    · cases h
  | rollback t =>
    obtain ⟨db, hdb, rfl⟩ := lift_eq_some h
    have hgood : Locked.Good allowed db := Locked.Good.step hs.good hdb
    obtain rfl := Locked.step_rollback hdb
    exact hs.finish hgood rfl hs.committed

theorem settled_init : Settled init :=
  ⟨Locked.good_init, fun _ _ _ _ h => (nomatch h), fun _ _ _ h => (nomatch h)⟩

theorem settled_of_run {es : List VoteEvent} (h : Run Step init es s) : Settled s :=
  h.keeps Settled settled_init fun _ _ _ hs hstep => hs.step hstep

end VoteState

/-! ## The last rule -/

/-- The latest choice after writes that end with a vote is that vote. -/
theorem latest_votesAfter {ws : List VoteWrite}
    (h : ∀ vote now, ws.getLast? ≠ some (.provisional vote now)) :
    (votesAfter .new ws).latest.map (·.vote) =
      (votesAfter .new ws).history.getLast?.map fun r => some r.vote := by
  induction ws using List.reverseRecOn with
  | nil => rfl
  | append_singleton ws w _ =>
    cases w with
    | provisional vote now => simp at h
    | insert row =>
      rw [votesAfter_snoc]
      unfold KeyVotes.write on_vote_insert_update_unique_table
      cases (votesAfter .new ws).latest <;> simp

/-! ## Newer votes -/

/-- A row that is newer than the others: stamped later, or as late and inserted later. -/
def Follows (history : List VoteRow) (row : VoteRow) : Prop :=
  ∀ r ∈ history, r.created < row.created ∨ r.created = row.created ∧ r.inserted < row.inserted

instance (history : List VoteRow) : DecidablePred (Follows history) := fun row =>
  inferInstanceAs (Decidable (∀ r ∈ history,
    r.created < row.created ∨ r.created = row.created ∧ r.inserted < row.inserted))

/-- The newest row of a history is the last one, if that follows the others. -/
theorem newestRow_snoc {history : List VoteRow} {row : VoteRow} (h : Follows history row) :
    newestRow (history ++ [row]) = some row := by
  have hperm : (sortByStamp (fun r : VoteRow => (r.inserted : ℤ)) (history ++ [row])).Perm
      (history ++ [row]) := sortByStamp_perm _
  have hmem : row ∈ sortByStamp (fun r : VoteRow => (r.inserted : ℤ)) (history ++ [row]) :=
    mem_sortByStamp.2 (by simp)
  obtain ⟨before, after, hsplit⟩ := append_of_mem hmem
  have hothers : (before ++ after).Perm history := by
    have hcons : (row :: (before ++ after)).Perm (row :: history) :=
      perm_middle.symm.trans ((hsplit ▸ hperm).trans (perm_append_singleton _ _))
    exact hcons.cons_inv
  have hfollows : ∀ r ∈ before ++ after, r.created < row.created ∨
      r.created = row.created ∧ r.inserted < row.inserted :=
    fun r hr => h r (hothers.mem_iff.1 hr)
  have hsorted : (sortByStamp (fun r : VoteRow => (r.inserted : ℤ)) (history ++ [row])).Pairwise
      fun a b => (a.inserted : ℤ) ≤ b.inserted := sortByStamp_pairwise _
  rw [hsplit] at hsorted
  have hafter : ∀ r ∈ after, (row.inserted : ℤ) ≤ r.inserted :=
    fun r hr => (pairwise_cons.1 (pairwise_append.1 hsorted).2.1).1 r hr
  rw [newestRow, hsplit]
  refine newest_of_split rfl (fun r hr _ => ?_) fun r hr _ => ?_
  · rcases hfollows r (mem_append_left _ hr) with hlt | ⟨heq, -⟩
    · exact hlt.le
    · exact heq.le
  · rcases hfollows r (mem_append_right _ hr) with hlt | ⟨-, hlt⟩
    · exact hlt
    · exact absurd (hafter r hr) (by omega)

namespace VoteState

/-- The writes of votes that are newer than those that they see. -/
def allowedInOrder (k : VoteKey) (ws : List VoteWrite) (w : VoteWrite) : Prop :=
  allowed k ws w ∧ ∀ row, w = .insert row → Follows (votesAfter .new ws).history row

/-- The rule runs only for a vote that is newer than those that it sees. -/
def InOrder (s : VoteState) : VoteEvent → Prop
  | .rule t => ∀ r ∈ (s.staged t).head?, Follows (s.view t r.1).history r.2
  | _ => True

instance (s : VoteState) : DecidablePred s.InOrder := fun e =>
  match e with
  | .rule t => inferInstanceAs (Decidable (∀ r ∈ (s.staged t).head?, _))
  | .begin _ _ | .lock _ _ | .provisional _ _ _ | .insert _ _ _ _ _ | .commit _ | .rollback _ =>
    isTrue trivial

/-- A step that keeps the order of the votes. -/
def StepInOrder (s : VoteState) (e : VoteEvent) (s' : VoteState) : Prop :=
  Step s e s' ∧ s.InOrder e

instance (k : VoteKey) (ws : List VoteWrite) : DecidablePred (allowedInOrder k ws) := fun w =>
  match w with
  | .provisional vote now =>
    decidable_of_iff (allowed k ws (.provisional vote now))
      ⟨fun h => ⟨h, fun _ hw => nomatch hw⟩, fun h => h.1⟩
  | .insert row =>
    decidable_of_iff (Follows (votesAfter .new ws).history row)
      ⟨fun h => ⟨trivial, fun _ hw => VoteWrite.insert.inj hw ▸ h⟩, fun h => h.2 row rfl⟩

theorem stepInOrder_under {s s' : VoteState} {e : VoteEvent} (h : StepInOrder s e s') :
    s'.db = s.db ∨ ∃ e', Locked.Step allowedInOrder s.db e' s'.db := by
  rcases step_under h.1 with ⟨-, hdb⟩ | ⟨e', hunder, hstep⟩
  · exact .inl hdb
  · refine .inr ⟨e', Locked.step_of_allowed (fun t k w he' => ?_) hstep⟩
    subst he'
    obtain ⟨-, hallowed, -⟩ := Locked.step_write hstep
    refine ⟨hallowed, fun row hw => ?_⟩
    cases hunder with
    | provisional => cases hw
    | rule t hstaged =>
      cases hw
      exact h.2 (k, row) (by rw [hstaged]; rfl)

theorem good_inOrder {es : List VoteEvent} {s : VoteState} (h : Run StepInOrder init es s) :
    Locked.Good allowedInOrder s.db := by
  refine h.keeps (fun s => Locked.Good allowedInOrder s.db) Locked.good_init fun s e s' hs hstep => ?_
  rcases stepInOrder_under hstep with hdb | ⟨e', hstep'⟩
  · rwa [hdb]
  · exact hs.step hstep'

end VoteState

/-- In a serial history of votes that are each newer than those before, the last is the newest. -/
theorem newestRow_of_inOrder {k : VoteKey} {ws : List VoteWrite}
    (h : Serial (VoteState.allowedInOrder k) ws) :
    newestRow (votesAfter .new ws).history = (votesAfter .new ws).history.getLast? := by
  induction h with
  | nil => rfl
  | @snoc ws w _ hw ih =>
    rw [votesAfter_snoc]
    cases w with
    | provisional vote now => exact ih
    | insert row =>
      rw [show ((votesAfter .new ws).write (.insert row)).history =
        (votesAfter .new ws).history ++ [row] from rfl, newestRow_snoc (hw.2 row rfl)]
      simp

/-! ## The engine -/

/-- The hits of a list are all that matters for the newest. -/
theorem newest_filter {α : Type*} {stamp : α → ℤ} {hit : α → Bool} (l : List α) :
    newest stamp (fun _ => true) (l.filter hit) = newest stamp hit l := by
  induction l with
  | nil => rfl
  | cons a l ih =>
    by_cases ha : hit a = true
    · rw [filter_cons_of_pos ha, newest, newest, ih]
      simp [ha]
    · rw [filter_cons_of_neg ha, ih, newest]
      cases newest stamp hit l <;> simp [ha]

/-- The rows are of one conversation, and those of the key stand in the order of their inserts. -/
def Replays (s : VoteState) (k : VoteKey) (rows : List (VoteKey × VoteRow)) : Prop :=
  (∀ r ∈ rows, r.1.zid = k.zid) ∧
  (rows.filter fun r => r.1 = k).map (·.2) =
    sortByStamp (fun r => (r.inserted : ℤ)) (s.committed k).history

/-- The cell that a row asks the engine to write. -/
def VoteRow.update (storage_agree_value : ℤ) (r : VoteKey × VoteRow) : VoteUpdate :=
  ⟨r.1.pid, r.1.tid, some (Vote.ofNum (semantic_vote r.2.vote storage_agree_value)), r.2.created⟩

theorem update_dict (storage_agree_value lastVoteTimestamp : ℤ) (r : VoteKey × VoteRow) :
    (r.2.dict storage_agree_value r.1).update? lastVoteTimestamp =
      some (VoteRow.update storage_agree_value r) := by
  simp [VoteRow.dict, VoteDict.update?, VoteValue.convert, VoteRow.update]

/-- The engine keeps the choice of the newest row. -/
theorem engineChoice_eq {s : VoteState} {k : VoteKey} {rows : List (VoteKey × VoteRow)}
    (h : Replays s k rows) (storage_agree_value now : ℤ) :
    engineChoice storage_agree_value now rows k.pid k.tid =
      (newestRow (s.committed k).history).map fun row =>
        Vote.ofNum (semantic_vote row.vote storage_agree_value) := by
  have hhit : ∀ r ∈ rows,
      (VoteUpdate.hits k.pid k.tid ∘ VoteRow.update storage_agree_value) r = decide (r.1 = k) := by
    intro r hr
    have hzid := h.1 r hr
    obtain ⟨⟨zid, pid, tid⟩, row⟩ := r
    obtain ⟨kzid, kpid, ktid⟩ := k
    obtain rfl : zid = kzid := hzid
    rw [Bool.eq_iff_iff]
    simp only [VoteUpdate.hits, VoteRow.update, comp_apply, Bool.and_eq_true,
      decide_eq_true_iff, VoteKey.mk.injEq, true_and]
    exact and_congr decide_eq_true_iff decide_eq_true_iff
  have haccepted : ∀ l : List (VoteKey × VoteRow), ∀ last : ℤ,
      (l.map fun r => r.2.dict storage_agree_value r.1).filterMap (VoteDict.update? last) =
        l.map (VoteRow.update storage_agree_value) := by
    intro l last
    induction l with
    | nil => rfl
    | cons r l ih => simp [update_dict, ih]
  have hnewest : newest VoteUpdate.created (VoteUpdate.hits k.pid k.tid)
      (rows.map (VoteRow.update storage_agree_value)) =
      (newest (fun r : VoteKey × VoteRow => r.2.created) (fun _ => true)
        (rows.filter fun r => r.1 = k)).map (VoteRow.update storage_agree_value) := by
    rw [newest_map, newest_congr hhit, newest_filter]
    rfl
  have hrow : newestRow (s.committed k).history =
      (newest (fun r : VoteKey × VoteRow => r.2.created) (fun _ => true)
        (rows.filter fun r => r.1 = k)).map (·.2) := by
    rw [newestRow, ← h.2, newest_map]
    rfl
  rw [engineChoice, ingestVotes_cell, Conversation.acceptedUpdates, haccepted, hnewest, hrow]
  cases newest (fun r : VoteKey × VoteRow => r.2.created) (fun _ => true)
    (rows.filter fun r => r.1 = k) <;> rfl

/-! ## Every run -/

/-- The latest choice of a key. -/
def VoteState.latestVote (s : VoteState) (k : VoteKey) : Option (Option ℤ) :=
  (s.committed k).latest.map (·.vote)

/-- The latest choice is the vote whose rule ran last. Where the rule runs only for votes that are newer
than those of their key that they see, it is the newest row's and the engine's choice. -/
theorem latest_is_last_rule :
    (∀ es s, Run VoteState.Step .init es s → ∀ k,
      s.latestVote k = (s.committed k).history.getLast?.map fun r => some r.vote) ∧
    ∀ es s, Run VoteState.StepInOrder .init es s → ∀ k,
      (s.latestVote k = (newestRow (s.committed k).history).map fun r => some r.vote) ∧
      ∀ storage_agree_value now rows, Replays s k rows →
        engineChoice storage_agree_value now rows k.pid k.tid =
          (s.latestVote k).join.map fun vote =>
            Vote.ofNum (semantic_vote vote storage_agree_value) := by
  have hlast : ∀ es s, Run VoteState.Step .init es s → ∀ k,
      s.latestVote k = (s.committed k).history.getLast?.map fun r => some r.vote :=
    fun es s h k => latest_votesAfter ((VoteState.settled_of_run h).committed k)
  refine ⟨hlast, fun es s h k => ?_⟩
  have hnewest : newestRow (s.committed k).history = (s.committed k).history.getLast? :=
    newestRow_of_inOrder ((VoteState.good_inOrder h).serial k)
  have hlatest := hlast es s (h.mono fun _ _ _ hstep => hstep.1) k
  rw [← hnewest] at hlatest
  refine ⟨hlatest, fun storage_agree_value now rows hrows => ?_⟩
  rw [engineChoice_eq hrows, hlatest]
  cases newestRow (s.committed k).history <;> rfl

/-- A participant agrees and then disagrees. -/
private def revote : List VoteEvent :=
  [.begin 1 1000, .lock 1 ⟨7, 0, 3⟩, .provisional 1 ⟨7, 0, 3⟩ (-1),
    .insert 1 ⟨7, 0, 3⟩ (-1) 0 false, .rule 1, .commit 1, .begin 2 2000,
    .insert 2 ⟨7, 0, 3⟩ 1 0 false, .lock 2 ⟨7, 0, 3⟩, .rule 2, .commit 2]

theorem latest_is_last_rule_revote : ∃ s, Run VoteState.StepInOrder .init revote s ∧
    s.latestVote ⟨7, 0, 3⟩ = some (some 1) ∧
    engineChoice (-1) 0 [(⟨7, 0, 3⟩, ⟨-1, 0, false, 1000, 0⟩), (⟨7, 0, 3⟩, ⟨1, 0, false, 2000, 1⟩)]
      0 3 = some .disagree := by
  have hrun : (revote.foldlM (fun s e => if VoteState.InOrder s e then VoteState.next s e else none)
      VoteState.init).map (fun s => s.committed ⟨7, 0, 3⟩) =
      some ⟨[⟨-1, 0, false, 1000, 0⟩, ⟨1, 0, false, 2000, 1⟩], some ⟨some 1, 0, 2000⟩⟩ := by
    decide
  obtain ⟨s, hs, hcommitted⟩ := map_eq_some_iff.1 hrun
  have hsteps : Run VoteState.StepInOrder .init revote s := by
    refine (run_of_foldlM hs).mono fun s e s' hstep => ?_
    split at hstep
    · next horder => exact ⟨hstep, horder⟩
    · cases hstep
  obtain ⟨-, hengine⟩ := latest_is_last_rule.2 revote s hsteps ⟨7, 0, 3⟩
  have hlatest : s.latestVote ⟨7, 0, 3⟩ = some (some 1) := by
    rw [VoteState.latestVote, hcommitted]
    rfl
  refine ⟨s, hsteps, hlatest, ?_⟩
  rw [hengine (-1) 0 _ ⟨by decide, by rw [hcommitted]; decide⟩, hlatest]
  decide

/-- The first of two transactions to start commits last. -/
private def lateCommit : List VoteEvent :=
  [.begin 1 1000, .begin 2 2000, .insert 2 ⟨7, 0, 3⟩ (-1) 0 false, .lock 2 ⟨7, 0, 3⟩, .rule 2,
    .commit 2, .insert 1 ⟨7, 0, 3⟩ 1 0 false, .lock 1 ⟨7, 0, 3⟩, .rule 1, .commit 1]

/-- The latest choice is the vote of the transaction that committed last, and the newest row the other's. -/
theorem latest_not_newest : ∃ es s k, Run VoteState.Step .init es s ∧
    s.latestVote k = some (some 1) ∧ (newestRow (s.committed k).history).map (·.vote) = some (-1) := by
  have hrun : (lateCommit.foldlM VoteState.next .init).map (fun s => s.committed ⟨7, 0, 3⟩) =
      some ⟨[⟨-1, 0, false, 2000, 0⟩, ⟨1, 0, false, 1000, 1⟩], some ⟨some 1, 0, 1000⟩⟩ := by
    decide
  obtain ⟨s, hs, hcommitted⟩ := map_eq_some_iff.1 hrun
  refine ⟨lateCommit, s, ⟨7, 0, 3⟩, run_of_foldlM hs, ?_, ?_⟩
  · rw [VoteState.latestVote, hcommitted]
    rfl
  · rw [hcommitted]
    decide

end Polis.Participation
