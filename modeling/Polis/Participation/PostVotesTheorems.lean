import Polis.Participation.PostVotes

/-!
# Votes are appended once and reported truthfully

The committed tables of a key are those of its appends one after the other, in the order of their
commits. A receipt is what this gives the append of the request, a failure status means that nothing of
the request is committed, and a dispatched request is not handed back.
-/

namespace Polis.Participation

open List Option Locked KeyVotes

/-! ## Appends one after the other -/

/-- The tables after the appends, one at a time. -/
def KeyVotes.appendAll (v : KeyVotes) (as : List Append) : KeyVotes :=
  as.foldl (fun v a => (v.append a).1) v

/-- The latest choice is that of the last append. -/
theorem latest_appendAll (v : KeyVotes) (as : List Append) (a : Append) :
    (v.appendAll (as ++ [a])).latest.map (·.vote) = some (some a.row.vote) := by
  rw [appendAll, foldl_append, foldl_cons, foldl_nil]
  generalize as.foldl (fun v a => (v.append a).1) v = u
  unfold append
  split
  · next l hl =>
      split
      · next hvote => simp [hl, hvote]
      · simp [write, on_vote_insert_update_unique_table, hl]
  · next hl => simp [write, on_vote_insert_update_unique_table, hl]

/-- An append adds one row if its choice is not the latest, and none if it is. -/
theorem history_append (v : KeyVotes) (a : Append) :
    (v.append a).1.history =
      if v.latest.map (·.vote) = some (some a.row.vote) then v.history else v.history ++ [a.row] := by
  unfold append
  cases hl : v.latest with
  | none => simp [write]
  | some l =>
    by_cases hvote : l.vote = some a.row.vote
    · simp [hvote]
    · simp [hvote, write]

/-! ## What the events report -/

/-- The append that the event makes durable. -/
def PostEvent.committed : PostEvent → Option (ℕ × Append)
  | .commit r a | .settle r a true => some (r, a)
  | _ => none

/-- The row that a key's history gains: that of a committed append whose choice is not the latest. -/
def PostEvent.gains (e : PostEvent) (k : VoteKey) (latest : Option LatestRow) : List VoteRow :=
  match e.committed with
  | some (_, a) =>
    if a.key = k ∧ latest.map (·.vote) ≠ some (some a.row.vote) then [a.row] else []
  | none => []

/-- The durable appends to a key, in the order of their commits. -/
def appendsTo (k : VoteKey) (es : List PostEvent) : List Append :=
  ((es.filterMap PostEvent.committed).map (·.2)).filter (·.key = k)

/-- The append is the vote of the request. -/
def Dispatch.Owns (d : Dispatch) (a : Append) : Prop :=
  a.key = d.key ∧ a.choice = d.fields.vote ∧ a.row.vote = d.fields.vote.stored_vote

/-- Nothing of the request is committed. -/
def Uncommitted (es : List PostEvent) (r : ℕ) : Prop := ∀ a, (r, a) ∉ es.filterMap PostEvent.committed

/-- The tables of a key after its durable appends, one at a time. -/
def tablesAfter (start : VoteKey → KeyVotes) (es : List PostEvent) (k : VoteKey) : KeyVotes :=
  (start k).appendAll (appendsTo k es)

/-- The request's append is committed, and the receipt is what it gives after the appends before it. -/
def Receipted (start : VoteKey → KeyVotes) (es : List PostEvent) (r : ℕ) (vote : AcceptedVote) :
    Prop :=
  ∃ pre e post a, es = pre ++ e :: post ∧ e.committed = some (r, a) ∧
    vote = ((tablesAfter start pre a.key).append a).2

variable {start : VoteKey → KeyVotes} {es : List PostEvent} {e : PostEvent} {w w' : Writer} {r q : ℕ}
  {d : Dispatch}
variable {d' : Dispatch} {vote : AcceptedVote}
variable {db : Locked VoteKey ℕ VoteWrite} {a : Append}

theorem Uncommitted.snoc (h : Uncommitted es r) (he : ∀ a, e.committed ≠ some (r, a)) :
    Uncommitted (es ++ [e]) r := by
  intro a ha
  rw [filterMap_append, mem_append] at ha
  rcases ha with ha | ha
  · exact h a ha
  · obtain ⟨e', he', hcommitted⟩ := mem_filterMap.1 ha
    rw [mem_singleton.1 he'] at hcommitted
    exact he a hcommitted

theorem Receipted.snoc (h : Receipted start es r vote) :
    Receipted start (es ++ [e]) r vote := by
  obtain ⟨pre, e', post, a, rfl, hcommitted, hvote⟩ := h
  exact ⟨pre, e', post ++ [e], a, by simp, hcommitted, hvote⟩

theorem Dispatch.owns_snoc (h : ∀ a, (r, a) ∈ es.filterMap PostEvent.committed → d.Owns a)
    (he : ∀ a, e.committed = some (r, a) → d.Owns a) (a : Append)
    (ha : (r, a) ∈ (es ++ [e]).filterMap PostEvent.committed) : d.Owns a := by
  rw [filterMap_append, mem_append] at ha
  rcases ha with ha | ha
  · exact h a ha
  · obtain ⟨e', he', hcommitted⟩ := mem_filterMap.1 ha
    rw [mem_singleton.1 he'] at hcommitted
    exact he a hcommitted

theorem appendsTo_snoc (k : VoteKey) : appendsTo k (es ++ [e]) =
    appendsTo k es ++ (e.committed.toList.map (·.2)).filter (·.key = k) := by
  unfold appendsTo
  rw [filterMap_append, map_append, filter_append]
  cases he : e.committed <;> simp [he]

theorem tablesAfter_snoc_none (he : e.committed = none) (k : VoteKey) :
    tablesAfter start (es ++ [e]) k = tablesAfter start es k := by
  simp [tablesAfter, appendsTo_snoc, he]

theorem tablesAfter_snoc (he : e.committed = some (r, a)) (k : VoteKey) :
    tablesAfter start (es ++ [e]) k =
      if a.key = k then ((tablesAfter start es k).append a).1 else tablesAfter start es k := by
  rw [tablesAfter, appendsTo_snoc, he]
  by_cases hk : a.key = k
  · simp [hk, appendAll, tablesAfter]
  · simp [hk, tablesAfter]

/-! ## Where a request is -/

namespace Writer

/-- The request has written nothing that is not committed. -/
def Idle (w : Writer) (r : ℕ) : Prop := ∀ k, w.db.pending r k = []

/-- The request has put a provisional row where there was none, and nothing else. -/
structure Provisional (start : VoteKey → KeyVotes) (w : Writer) (r : ℕ) (d : Dispatch) (now : ℤ) :
    Prop where
  holder : w.db.holder d.key = some r
  pending : ∀ k, w.db.pending r k =
    if k = d.key then [.provisional d.fields.vote.stored_vote now] else []
  missing : (w.committed start d.key).latest = none

/-- The request has written its append, and what it has written is what the append gives. -/
structure Ready (start : VoteKey → KeyVotes) (w : Writer) (r : ℕ) (d : Dispatch) (a : Append)
    (vote : AcceptedVote) : Prop where
  owns : d.Owns a
  holder : w.db.holder d.key = some r
  others : ∀ k, k ≠ d.key → w.db.pending r k = []
  append : (w.view start r d.key, vote) = (w.committed start d.key).append a

/-- The request's part of the database. -/
def Tx (start : VoteKey → KeyVotes) (w : Writer) (r : ℕ) (d : Dispatch) : Prop :=
  match d.phase with
  | .acquiring | .opened _ | .acknowledged _ | .published _ => w.Idle r
  | .provisioned now inserted => if inserted then w.Provisional start r d now else w.Idle r
  | .selected now inserted latest =>
    w.db.holder d.key = some r ∧ (w.view start r d.key).latest = some latest ∧
      if inserted then w.Provisional start r d now else w.Idle r
  | .appended a vote => w.Ready start r d a vote
  | .finished _ =>
    match d.limbo with
    | none => w.Idle r
    | some a => ∃ vote, w.Ready start r d a vote

/-- What the history says of a request in a phase. -/
def Told (start : VoteKey → KeyVotes) (es : List PostEvent) (r : ℕ) (d : Dispatch) : Prop :=
  match d.phase with
  | .acknowledged vote | .published vote => Receipted start es r vote
  | .finished (some (.inl body)) => Receipted start es r body.vote
  | .finished (some (.inr _)) => Uncommitted es r
  | .finished none => d.limbo ≠ none → Uncommitted es r
  | _ => Uncommitted es r

/-- What an answer says of a request. -/
def Truthful (start : VoteKey → KeyVotes) (es : List PostEvent) (r : ℕ) : Answer → Prop
  | .accepted body => Receipted start es r body.vote
  | .failure _ _ => Uncommitted es r
  | .unknown => True
  | .handback | .parameterError | .closed => False

/-- What holds of a dispatched request. -/
structure Held (start : VoteKey → KeyVotes) (es : List PostEvent) (w : Writer) (r : ℕ) (d : Dispatch) :
    Prop where
  tx : w.Tx start r d
  told : Told start es r d
  owns : ∀ a, (r, a) ∈ es.filterMap PostEvent.committed → d.Owns a
  limbo : d.limbo ≠ none → d.phase = .finished none
  receipt : ∀ vote, d.receipt = some vote → Receipted start es r vote
  answer : ∀ answer, d.answer = some answer → Truthful start es r answer ∧
    ∀ status code, answer = .failure status code → d.phase = .finished (some (.inr (status, code)))

/-- What holds in every state. -/
structure Inv (start : VoteKey → KeyVotes) (es : List PostEvent) (w : Writer) : Prop where
  good : Locked.Good (allowed start) w.db
  tables : ∀ k, w.committed start k = tablesAfter start es k
  held : ∀ r d, w.dispatched r = some d → w.Held start es r d
  fresh : ∀ r, w.dispatched r = none → w.Idle r ∧ Uncommitted es r
  refused : ∀ r answer, w.refused r = some answer → w.dispatched r = none

/-! ## What one request leaves to the others -/

/-- The step is of one request: its place changes, and the database by its transaction only. -/
structure Moved (start : VoteKey → KeyVotes) (w w' : Writer) (r : ℕ) (d' : Dispatch) : Prop where
  dispatched : ∀ q, w'.dispatched q = if q = r then some d' else w.dispatched q
  refused : w'.refused = w.refused
  db : ∃ es, Run (Locked.Step (allowed start)) w.db es w'.db ∧ ∀ e ∈ es, e.transaction = r

theorem lift_eq_some {es : List (Locked.Event VoteKey ℕ VoteWrite)} (h : w.lift start es = some w') :
    ∃ db, Run (Locked.Step (allowed start)) w.db es db ∧ w' = { w with db } := by
  obtain ⟨db, hdb, rfl⟩ := map_eq_some_iff.1 h
  exact ⟨db, run_of_foldlM hdb, rfl⟩

theorem Tx.frame (h : w.Tx start q d) (hpending : w'.db.pending q = w.db.pending q)
    (hheld : ∀ k, w.db.holder k = some q →
      w'.db.holder k = some q ∧ w'.db.committed k = w.db.committed k) : w'.Tx start q d := by
  have hidle : w.Idle q → w'.Idle q := fun hidle k => by rw [hpending]; exact hidle k
  have hprovisional : ∀ now, w.Provisional start q d now → w'.Provisional start q d now := by
    intro now h
    obtain ⟨hholder, hcommitted⟩ := hheld _ h.holder
    refine ⟨hholder, fun k => by rw [hpending]; exact h.pending k, ?_⟩
    rw [committed, hcommitted]
    exact h.missing
  have hview : w.db.holder d.key = some q → w'.view start q d.key = w.view start q d.key := by
    intro hholder
    rw [view, view, Locked.view, Locked.view, hpending, (hheld _ hholder).2]
  have hready : ∀ a vote, w.Ready start q d a vote → w'.Ready start q d a vote := by
    intro a vote h
    obtain ⟨hholder, hcommitted⟩ := hheld _ h.holder
    refine ⟨h.owns, hholder, fun k hk => by rw [hpending]; exact h.others k hk, ?_⟩
    rw [hview h.holder, committed, hcommitted]
    exact h.append
  cases hphase : d.phase with
  | acquiring | opened | acknowledged | published =>
    simp only [Tx, hphase] at h ⊢
    exact hidle h
  | provisioned now inserted =>
    simp only [Tx, hphase] at h ⊢
    cases inserted with
    | true => exact hprovisional now h
    | false => exact hidle h
  | selected now inserted latest =>
    simp only [Tx, hphase] at h ⊢
    obtain ⟨hholder, hlatest, hwritten⟩ := h
    refine ⟨(hheld _ hholder).1, by rw [hview hholder]; exact hlatest, ?_⟩
    cases inserted with
    | true => exact hprovisional now hwritten
    | false => exact hidle hwritten
  | appended a vote =>
    simp only [Tx, hphase] at h ⊢
    exact hready a vote h
  | finished result =>
    cases hlimbo : d.limbo with
    | none =>
      simp only [Tx, hphase, hlimbo] at h ⊢
      exact hidle h
    | some a =>
      simp only [Tx, hphase, hlimbo] at h ⊢
      obtain ⟨vote, hvote⟩ := h
      exact ⟨vote, hready a vote hvote⟩

/-- An event of another request does not change what is told of this one. -/
theorem Told.snoc (h : Told start es q d) (he : ∀ a, e.committed ≠ some (q, a)) :
    Told start (es ++ [e]) q d := by
  unfold Told at h ⊢
  split at h
  all_goals first
    | exact Receipted.snoc h
    | exact Uncommitted.snoc h he
    | exact fun hlimbo => (h hlimbo).snoc he

theorem Truthful.snoc {answer : Answer} (h : Truthful start es q answer)
    (he : ∀ a, e.committed ≠ some (q, a)) : Truthful start (es ++ [e]) q answer := by
  cases answer with
  | accepted body => exact Receipted.snoc h
  | failure status code => exact Uncommitted.snoc h he
  | unknown => exact trivial
  | handback | parameterError | closed => exact h

theorem Held.frame (h : w.Held start es q d) (hpending : w'.db.pending q = w.db.pending q)
    (hheld : ∀ k, w.db.holder k = some q →
      w'.db.holder k = some q ∧ w'.db.committed k = w.db.committed k)
    (he : ∀ a, e.committed ≠ some (q, a)) : w'.Held start (es ++ [e]) q d where
  tx := h.tx.frame hpending hheld
  told := h.told.snoc he
  owns := Dispatch.owns_snoc h.owns fun a ha => absurd ha (he a)
  limbo := h.limbo
  receipt vote hvote := (h.receipt vote hvote).snoc
  answer answer hanswer := ⟨(h.answer answer hanswer).1.snoc he, (h.answer answer hanswer).2⟩

/-- A step of one request keeps what holds of the others. -/
theorem Inv.moved (hw : w.Inv start es) (hd : w.dispatched r = some d)
    (hmoved : Moved start w w' r d') (he : ∀ q a, e.committed = some (q, a) → q = r)
    (htables : ∀ k, w'.committed start k = tablesAfter start (es ++ [e]) k)
    (hheld : w'.Held start (es ++ [e]) r d') : w'.Inv start (es ++ [e]) := by
  obtain ⟨es', hrun, hby⟩ := hmoved.db
  have hothers : ∀ q, q ≠ r → w'.db.pending q = w.db.pending q ∧ ∀ k, w.db.holder k = some q →
      w'.db.holder k = some q ∧ w'.db.committed k = w.db.committed k :=
    fun q hq => hw.good.run_other hrun hby hq
  have hcommitted : ∀ q, q ≠ r → ∀ a, e.committed ≠ some (q, a) := fun q hq a ha => hq (he q a ha)
  refine ⟨hw.good.run hrun, htables, fun q d₁ hq => ?_, fun q hq => ?_, fun q answer hq => ?_⟩
  · rw [hmoved.dispatched] at hq
    split at hq
    · next hqr =>
        subst hqr
        obtain rfl := Option.some.inj hq
        exact hheld
    · next hqr =>
        obtain ⟨hpending, hkeep⟩ := hothers q hqr
        exact (hw.held q d₁ hq).frame hpending hkeep (hcommitted q hqr)
  · rw [hmoved.dispatched] at hq
    split at hq
    · cases hq
    · next hqr =>
        obtain ⟨hidle, hun⟩ := hw.fresh q hq
        refine ⟨fun k => ?_, hun.snoc (hcommitted q hqr)⟩
        rw [(hothers q hqr).1]
        exact hidle k
  · rw [hmoved.refused] at hq
    have hnone := hw.refused q answer hq
    rw [hmoved.dispatched, if_neg]
    · exact hnone
    · rintro rfl
      rw [hd] at hnone
      cases hnone

/-- A step without a commit keeps what holds. -/
theorem Inv.quiet {es' : List (Locked.Event VoteKey ℕ VoteWrite)}
    {inserts : ℕ} (hw : w.Inv start es)
    (hd : w.dispatched r = some d) (hrun : Run (Locked.Step (allowed start)) w.db es' db)
    (hby : ∀ e ∈ es', e.transaction = r) (hes : ∀ t, .commit t ∉ es') (he : e.committed = none)
    (hheld : Held start (es ++ [e]) { w.put r d' with db, inserts } r d') :
    Inv start (es ++ [e]) { w.put r d' with db, inserts } := by
  refine hw.moved hd ⟨fun q => rfl, rfl, es', hrun, hby⟩ (fun q a ha => ?_) (fun k => ?_) hheld
  · rw [he] at ha
    cases ha
  · rw [tablesAfter_snoc_none he, ← hw.tables, committed, committed, run_committed hrun hes]

/-- A dispatch whose transaction has not ended goes to its next place. -/
theorem Held.advance (h : w.Held start es r d) (hphase : ∀ result, d.phase ≠ .finished result)
    (howns : ∀ a, e.committed = some (r, a) → d.Owns a)
    {p : Phase} {receipt : Option AcceptedVote} (htx : w'.Tx start r { d with phase := p, receipt })
    (htold : Told start (es ++ [e]) r { d with phase := p, receipt })
    (hreceipt : ∀ vote, receipt = some vote → Receipted start (es ++ [e]) r vote) :
    w'.Held start (es ++ [e]) r { d with phase := p, receipt } where
  tx := htx
  told := htold
  owns := Dispatch.owns_snoc h.owns howns
  limbo hlimbo := absurd (h.limbo hlimbo) (hphase _)
  receipt := hreceipt
  answer answer hanswer := by
    obtain ⟨htruthful, hfailure⟩ := h.answer answer hanswer
    cases answer with
    | accepted body => exact ⟨Receipted.snoc htruthful, fun _ _ h => nomatch h⟩
    | failure status code => exact absurd (hfailure status code rfl) (hphase _)
    | unknown => exact ⟨trivial, fun _ _ h => nomatch h⟩
    | handback | parameterError | closed => exact htruthful.elim

/-! ## The statements -/

theorem view_idle (h : w.Idle r) (k : VoteKey) : w.view start r k = w.committed start k := by
  rw [view, Locked.view, h k, append_nil, committed]

theorem votesAfter_append (v : KeyVotes) (ws ws' : List VoteWrite) :
    votesAfter v (ws ++ ws') = votesAfter (votesAfter v ws) ws' :=
  foldl_append ..

/-- What is committed, with the statement's own writes. -/
theorem view_pending {ws : List VoteWrite} (k : VoteKey) (h : w.db.pending r k = ws) :
    w.view start r k = votesAfter (w.committed start k) ws := by
  rw [view, Locked.view, votesAfter_append, h, committed]

/-- The first statement of an append puts a row where there is none. -/
theorem provisional_of_run {now : ℤ}
    (hidle : w.Idle r) (hkey : d'.key = d.key) (hfields : d'.fields = d.fields)
    (hnone : (w.view start r d.key).latest = none)
    (hrun : Run (Locked.Step (allowed start)) w.db [.lock r d.key,
    .write r d.key (.provisional d.fields.vote.stored_vote now)] db) (hdb : w'.db = db) :
    w'.Provisional start r d' now := by
  obtain ⟨db₁, hlock, hrest⟩ := hrun.cons_inv
  obtain ⟨-, rfl⟩ := step_lock hlock
  obtain ⟨hholder, -, rfl⟩ := step_write (step_of_run hrest)
  refine ⟨?_, fun k => ?_, ?_⟩
  · rw [hdb, hkey]
    exact hholder
  · rw [hdb, hkey, hfields]
    have hnil : ∀ k, w.db.pending r k = [] := hidle
    by_cases hk : k = d.key
    · simp [Locked.add, Locked.take, hk, hnil]
    · simp [Locked.add, Locked.take, hk, hnil]
  · rw [view_idle hidle] at hnone
    rw [committed, hdb, hkey]
    exact hnone

/-- The tables that an append leaves a choice that is already the latest. -/
theorem append_replayed {v : KeyVotes} {l : LatestRow} (hl : v.latest = some l)
    (hvote : l.vote = some a.row.vote) : v.append a = (v, a.accepted l.modified true) := by
  simp [append, hl, hvote]

theorem append_changed {v : KeyVotes} {l : LatestRow} (hl : v.latest = some l)
    (hvote : l.vote ≠ some a.row.vote) :
    v.append a = (v.write (.insert a.row), a.accepted a.row.created false) := by
  simp [append, hl, hvote]

/-- The vote's rule overwrites the provisional row that precedes it. -/
theorem append_provisional {v : KeyVotes} (hl : v.latest = none)
    (hweight : a.row.weight_x_32767 = 0) (vote now : ℤ) :
    v.append a =
      ((v.write (.provisional vote now)).write (.insert a.row), a.accepted a.row.created false) := by
  simp [append, write, hl, on_vote_insert_update_unique_table, hweight]

/-- After the last statement the request has written its append. -/
theorem ready_of_insert {now : ℤ} {inserted : Bool} {latest : LatestRow}
    (hkey : d'.key = d.key) (howns : d'.Owns a)
    (hvote : a.row.vote = d.fields.vote.stored_vote) (hweight : a.row.weight_x_32767 = 0)
    (hholder : w.db.holder d.key = some r) (hlatest : (w.view start r d.key).latest = some latest)
    (hwritten : if inserted then w.Provisional start r d now else w.Idle r)
    (hnew : (!inserted && decide (latest.vote = some d.fields.vote.stored_vote)) = false)
    (hrun : Run (Locked.Step (allowed start)) w.db [.write r d.key (.insert a.row)] db)
    (hdb : w'.db = db) : w'.Ready start r d' a (a.accepted a.row.created false) := by
  obtain ⟨-, -, rfl⟩ := step_write (step_of_run hrun)
  have hview : w'.view start r d.key = (w.view start r d.key).write (.insert a.row) := by
    rw [view, hdb, view_add, if_pos ⟨rfl, rfl⟩, votesAfter_snoc, view]
  have hcommitted : w'.committed start d.key = w.committed start d.key := by
    rw [committed, committed, hdb]
    rfl
  refine ⟨howns, by rw [hdb, hkey]; exact hholder, fun k hk => ?_, ?_⟩
  · rw [hkey] at hk
    have hother : w'.db.pending r k = w.db.pending r k := by
      rw [hdb]
      exact if_neg fun h => hk h.2
    rw [hother]
    cases inserted with
    | true => rw [hwritten.pending k, if_neg hk]
    | false => exact hwritten k
  · rw [hkey, hview, hcommitted]
    cases inserted with
    | true =>
      rw [view_pending _ ((hwritten.pending d.key).trans (if_pos rfl)),
        append_provisional hwritten.missing hweight d.fields.vote.stored_vote now]
      rfl
    | false =>
      have hne : latest.vote ≠ some a.row.vote := by
        rw [hvote]
        simpa using hnew
      rw [view_idle hwritten] at hlatest ⊢
      rw [append_changed hlatest hne]

theorem idle_of_end {e' : Locked.Event VoteKey ℕ VoteWrite}
    (he : e' = .commit r ∨ e' = .rollback r) (h : Locked.Step (allowed start) w.db e' db)
    (hdb : w'.db = db) : w'.Idle r := by
  intro k
  rcases he with rfl | rfl
  · rw [hdb, step_commit h]
    exact if_pos rfl
  · rw [hdb, step_rollback h]
    exact if_pos rfl

/-- A commit adds the append to the tables of its key. -/
theorem committed_of_commit
    (hready : w.Ready start r d a vote) (h : Locked.Step (allowed start) w.db (.commit r) db)
    (k : VoteKey) : votesAfter (start k) (db.committed k) =
      if a.key = k then ((w.committed start k).append a).1 else w.committed start k := by
  have hview : votesAfter (start k) (db.committed k) = w.view start r k := by
    rw [step_commit h, view]
  rw [hview]
  split
  · next hk =>
      subst hk
      rw [hready.owns.1]
      exact congrArg Prod.fst hready.append
  · next hk =>
      exact view_pending k (hready.others k fun h => hk (hready.owns.1.trans h.symm))

/-- A durable append is told of the one whose commit it is. -/
theorem Inv.tables_commit (hw : w.Inv start es) (hready : w.Ready start r d a vote)
    (h : Locked.Step (allowed start) w.db (.commit r) db) (he : e.committed = some (r, a)) :
    (∀ k, votesAfter (start k) (db.committed k) = tablesAfter start (es ++ [e]) k) ∧
      Receipted start (es ++ [e]) r vote := by
  refine ⟨fun k => ?_, es, e, [], a, rfl, he, ?_⟩
  · rw [committed_of_commit hready h, tablesAfter_snoc he, hw.tables]
  · rw [← hw.tables, hready.owns.1]
    exact congrArg Prod.snd hready.append

theorem followUp_vote (pid : ℤ) (vote : AcceptedVote) (starred : Option Bool) (f : FollowUps) :
    (followUp pid vote starred f).vote = vote := by
  unfold followUp
  dsimp only
  split
  · rfl
  · split <;> rfl

/-- Before its transaction has ended, nothing of a request is committed. -/
theorem Held.uncommitted (h : w.Held start es r d) (hopen : Phase.isOpen d.phase = true) :
    Uncommitted es r := by
  have htold := h.told
  unfold Told at htold
  cases hphase : d.phase with
  | acquiring | opened | provisioned | selected | appended =>
    rw [hphase] at htold
    exact htold
  | acknowledged | published | finished =>
    rw [hphase] at hopen
    cases hopen

theorem Held.not_finished (hopen : Phase.isOpen d.phase = true) (result : TaskResult) :
    d.phase ≠ .finished result := by
  intro h
  rw [h] at hopen
  cases hopen

/-- What a reply says is true. -/
theorem Held.reply (h : w.Held start es r d) (result : Option TaskResult)
    (hresult : ∀ x, result = some x → d.phase = .finished x) :
    Truthful start es r (d.reply result) ∧ ∀ status code, d.reply result = .failure status code →
      d.phase = .finished (some (.inr (status, code))) := by
  have hfallback : Truthful start es r (d.reply none) ∧ ∀ status code, d.reply none = .failure status code →
      d.phase = .finished (some (.inr (status, code))) := by
    unfold Dispatch.reply
    cases hreceipt : d.receipt with
    | none => exact ⟨trivial, by rintro _ _ ⟨⟩⟩
    | some vote => exact ⟨h.receipt vote hreceipt, by rintro _ _ ⟨⟩⟩
  have htold := h.told
  unfold Told at htold
  rcases result with - | - | body | ⟨status, code⟩
  · exact hfallback
  · exact hfallback
  · rw [hresult _ rfl] at htold
    exact ⟨htold, by rintro _ _ ⟨⟩⟩
  · have hphase := hresult _ rfl
    rw [hphase] at htold
    refine ⟨htold, fun status' code' heq => ?_⟩
    cases heq
    exact hphase

/-- A statement that commits nothing takes an open transaction to another of its places. -/
theorem Held.goOn (h : w.Held start es r d) (hopen : Phase.isOpen d.phase = true) (he : e.committed = none)
    {p : Phase} (hp : Phase.isOpen p = true) (htx : w'.Tx start r { d with phase := p }) :
    w'.Held start (es ++ [e]) r { d with phase := p } := by
  have hquiet : ∀ a, e.committed ≠ some (r, a) := fun a ha => by rw [he] at ha; cases ha
  refine h.advance (Held.not_finished hopen) (fun a ha => absurd ha (hquiet a)) htx ?_
    fun vote hvote => (h.receipt vote hvote).snoc
  have hun := (h.uncommitted hopen).snoc hquiet
  cases p with
  | acquiring | opened | provisioned | selected | appended => exact hun
  | acknowledged | published | finished => cases hp

/-! ## One step -/

theorem Inv.receive {p : Preflight} (hw : w.Inv start es) (h : Step start w (.receive r p) w') :
    w'.Inv start (es ++ [.receive r p]) := by
  have hnone : PostEvent.committed (.receive r p) = none := rfl
  have hquiet : ∀ q a, PostEvent.committed (.receive r p) ≠ some (q, a) := by
    intro q a ha
    rw [hnone] at ha
    cases ha
  dsimp only [Step, next] at h
  split at h
  · next hfresh =>
      split at h
      · next answer =>
          cases h
          refine ⟨hw.good, fun k => ?_, fun q d hq => ?_, fun q hq => ?_, fun q a hq => ?_⟩
          · rw [tablesAfter_snoc_none hnone]
            exact hw.tables k
          · exact (hw.held q d hq).frame rfl (fun k hk => ⟨hk, rfl⟩) (hquiet q)
          · exact ⟨(hw.fresh q hq).1, (hw.fresh q hq).2.snoc (hquiet q)⟩
          · dsimp only at hq
            split at hq
            · next hqr => exact hqr ▸ hfresh.2
            · exact hw.refused q a hq
      · next admitted fields =>
          cases h
          obtain ⟨hidle, hun⟩ := hw.fresh r hfresh.2
          refine ⟨hw.good, fun k => ?_, fun q d hq => ?_, fun q hq => ?_, fun q a hq => ?_⟩
          · rw [tablesAfter_snoc_none hnone]
            exact hw.tables k
          · dsimp only [put] at hq
            split at hq
            · next hqr =>
                subst hqr
                cases hq
                exact ⟨hidle, hun.snoc (hquiet q), fun a ha => absurd ha (hun.snoc (hquiet q) a),
                  fun h => absurd rfl h, fun _ h => (nomatch h),
                  fun _ h => (nomatch h)⟩
            · exact (hw.held q d hq).frame rfl (fun k hk => ⟨hk, rfl⟩) (hquiet q)
          · dsimp only [put] at hq
            split at hq
            · cases hq
            · exact ⟨(hw.fresh q hq).1, (hw.fresh q hq).2.snoc (hquiet q)⟩
          · refine (if_neg ?_).trans (hw.refused q a hq)
            rintro rfl
            exact absurd (hfresh.1.symm.trans hq) (by simp)
  · cases h

/-- The step finds the request dispatched. -/
theorem dispatched_of_bind {f : Dispatch → Option Writer} (h : (w.dispatched r >>= f) = some w') :
    ∃ d, w.dispatched r = some d ∧ f d = some w' :=
  bind_eq_some_iff.1 h

/-- The statements before the commit. -/
theorem Inv.statement (hw : w.Inv start es) (h : Step start w e w')
    (he : (∃ now, e = .begin r now) ∨ e = .provision r ∨ e = .select r ∨ e = .insert r) :
    w'.Inv start (es ++ [e]) := by
  rcases he with ⟨now, rfl⟩ | rfl | rfl | rfl
  · obtain ⟨d, hd, hf⟩ := dispatched_of_bind h
    have hheld := hw.held r d hd
    split at hf
    · next hphase =>
        cases hf
        have hopen : Phase.isOpen d.phase = true := by rw [hphase]; rfl
        have hidle : w.Idle r := by simpa only [Tx, hphase] using hheld.tx
        refine hw.quiet hd .nil (by simp) (by simp) rfl ?_
        exact hheld.goOn hopen rfl rfl hidle
    · cases hf
  · obtain ⟨d, hd, hf⟩ := dispatched_of_bind h
    have hheld := hw.held r d hd
    split at hf
    · next now hphase =>
        have hopen : Phase.isOpen d.phase = true := by rw [hphase]; rfl
        have hidle : w.Idle r := by simpa only [Tx, hphase] using hheld.tx
        split at hf
        · next hnone =>
            obtain ⟨db, hrun, rfl⟩ := lift_eq_some hf
            refine hw.quiet hd hrun (by simp [Locked.Event.transaction]) (by simp) rfl ?_
            refine hheld.goOn hopen rfl rfl ?_
            exact provisional_of_run hidle rfl rfl hnone hrun rfl
        · cases hf
          refine hw.quiet hd .nil (by simp) (by simp) rfl ?_
          exact hheld.goOn hopen rfl rfl hidle
    · cases hf
  · obtain ⟨d, hd, hf⟩ := dispatched_of_bind h
    have hheld := hw.held r d hd
    split at hf
    · next now inserted latest hphase hlatest =>
        have hopen : Phase.isOpen d.phase = true := by rw [hphase]; rfl
        obtain ⟨db, hrun, rfl⟩ := lift_eq_some hf
        refine hw.quiet hd hrun (by simp [Locked.Event.transaction]) (by simp) rfl ?_
        refine hheld.goOn hopen rfl rfl ?_
        obtain ⟨-, rfl⟩ := step_lock (step_of_run hrun)
        refine ⟨if_pos rfl, hlatest, ?_⟩
        have htx := hheld.tx
        simp only [Tx, hphase] at htx
        cases inserted with
        | true => exact ⟨if_pos rfl, htx.pending, htx.missing⟩
        | false => exact htx
    · cases hf
  · obtain ⟨d, hd, hf⟩ := dispatched_of_bind h
    have hheld := hw.held r d hd
    split at hf
    · next now inserted latest hphase =>
        have hopen : Phase.isOpen d.phase = true := by rw [hphase]; rfl
        have htx := hheld.tx
        simp only [Tx, hphase] at htx
        obtain ⟨hholder, hlatest, hwritten⟩ := htx
        dsimp only at hf
        split at hf
        · next hreplayed =>
            cases hf
            rw [Bool.and_eq_true, Bool.not_eq_true', decide_eq_true_iff] at hreplayed
            obtain ⟨rfl, hvote⟩ := hreplayed
            refine hw.quiet hd .nil (by simp) (by simp) rfl ?_
            refine hheld.goOn hopen rfl rfl ?_
            refine ⟨⟨rfl, rfl, rfl⟩, hholder, fun k _ => hwritten k, ?_⟩
            rw [view_idle hwritten] at hlatest
            exact (congrArg (·, _) (view_idle hwritten d.key)).trans
              (append_replayed hlatest hvote).symm
        · next hnew =>
            obtain ⟨db, hrun, rfl⟩ := lift_eq_some hf
            refine hw.quiet hd hrun (by simp [Locked.Event.transaction]) (by simp) rfl ?_
            refine hheld.goOn hopen rfl rfl ?_
            exact ready_of_insert (d := d) rfl ⟨rfl, rfl, rfl⟩ rfl rfl hholder hlatest hwritten
              (by simpa using hnew) hrun rfl
    · cases hf

/-- The end of a transaction. -/
theorem Inv.ending (hw : w.Inv start es) (h : Step start w e w')
    (he : (∃ a, e = .commit r a) ∨ e = .commitLost r ∨ (∃ a durable, e = .settle r a durable) ∨
      ∃ sqlstate, e = .fail r sqlstate) : w'.Inv start (es ++ [e]) := by
  rcases he with ⟨a, rfl⟩ | rfl | ⟨a, durable, rfl⟩ | ⟨sqlstate, rfl⟩
  · obtain ⟨d, hd, hf⟩ := dispatched_of_bind h
    have hheld := hw.held r d hd
    split at hf
    · next a' vote hphase =>
        have hopen : Phase.isOpen d.phase = true := by rw [hphase]; rfl
        split at hf
        · next ha =>
            subst ha
            have hready : w.Ready start r d a vote := by simpa only [Tx, hphase] using hheld.tx
            obtain ⟨db, hrun, rfl⟩ := lift_eq_some hf
            have hstep := step_of_run hrun
            obtain ⟨htables, hreceipted⟩ := hw.tables_commit (e := .commit r a) hready hstep rfl
            refine hw.moved hd ⟨fun q => rfl, rfl, _, hrun, by simp [Locked.Event.transaction]⟩
              (fun q a' ha' => ?_) htables ?_
            · cases ha'
              rfl
            · exact hheld.advance (Held.not_finished hopen) (fun a' ha' => by cases ha'; exact hready.owns)
                (idle_of_end (.inl rfl) hstep rfl)
                hreceipted fun vote hvote => (hheld.receipt vote hvote).snoc
        · cases hf
    · cases hf
  · obtain ⟨d, hd, hf⟩ := dispatched_of_bind h
    have hheld := hw.held r d hd
    split at hf
    · next a vote hphase =>
        cases hf
        have hopen : Phase.isOpen d.phase = true := by rw [hphase]; rfl
        have hready : w.Ready start r d a vote := by simpa only [Tx, hphase] using hheld.tx
        refine hw.quiet hd .nil (by simp) (by simp) rfl ?_
        refine ⟨⟨vote, { hready with }⟩, fun _ => (hheld.uncommitted hopen).snoc (by simp [PostEvent.committed]),
          Dispatch.owns_snoc hheld.owns (fun _ h => nomatch h),
          fun _ => rfl, fun vote hvote => (hheld.receipt vote hvote).snoc, fun answer hanswer => ?_⟩
        obtain ⟨htruthful, hfailure⟩ := hheld.answer answer hanswer
        refine ⟨htruthful.snoc (by simp [PostEvent.committed]), fun status code hcode => ?_⟩
        exact absurd (hfailure status code hcode) (Held.not_finished hopen _)
    · cases hf
  · obtain ⟨d, hd, hf⟩ := dispatched_of_bind h
    have hheld := hw.held r d hd
    split at hf
    · next hlimbo =>
        have hphase := hheld.limbo (by rw [hlimbo]; simp)
        obtain ⟨vote, hready⟩ : ∃ vote, w.Ready start r d a vote := by
          simpa only [Tx, hphase, hlimbo] using hheld.tx
        obtain ⟨db, hrun, rfl⟩ := lift_eq_some hf
        have hstep := step_of_run hrun
        have hheld' : Held start (es ++ [.settle r a durable])
            { w.put r { d with limbo := none } with db } r { d with limbo := none } := by
          refine ⟨?_, ?_, Dispatch.owns_snoc hheld.owns fun a' ha' => ?_, fun h => absurd rfl h,
            fun vote hvote => (hheld.receipt vote hvote).snoc, fun answer hanswer => ?_⟩
          · simp only [Tx, hphase]
            exact idle_of_end (by cases durable <;> simp) hstep rfl
          · simp [Told, hphase]
          · cases durable with
            | true =>
              cases ha'
              exact hready.owns
            | false => cases ha'
          · obtain ⟨htruthful, hfailure⟩ := hheld.answer answer hanswer
            cases answer with
            | accepted body => exact ⟨Receipted.snoc htruthful, fun _ _ h => nomatch h⟩
            | failure status code =>
              have := hfailure status code rfl
              rw [hphase] at this
              cases this
            | unknown => exact ⟨trivial, fun _ _ h => nomatch h⟩
            | handback | parameterError | closed => exact htruthful.elim
        cases durable with
        | true =>
          obtain ⟨htables, -⟩ :=
            hw.tables_commit (e := .settle r a true) hready hstep rfl
          refine hw.moved hd ⟨fun q => rfl, rfl, _, hrun, by simp [Locked.Event.transaction]⟩
            (fun q a' ha' => ?_) htables hheld'
          cases ha'
          rfl
        | false => exact hw.quiet hd hrun (by simp [Locked.Event.transaction]) (by simp) rfl hheld'
    · cases hf
  · obtain ⟨d, hd, hf⟩ := dispatched_of_bind h
    have hheld := hw.held r d hd
    split at hf
    · next hopen =>
        obtain ⟨db, hrun, rfl⟩ := lift_eq_some hf
        have hstep := step_of_run hrun
        have hlimbo : d.limbo = none := by
          by_contra hne
          exact Held.not_finished hopen _ (hheld.limbo hne)
        have hun : Uncommitted (es ++ [.fail r sqlstate]) r :=
          (hheld.uncommitted hopen).snoc (by simp [PostEvent.committed])
        refine hw.quiet hd hrun (by simp [Locked.Event.transaction]) (by simp) rfl ?_
        refine hheld.advance (Held.not_finished hopen) (by simp [PostEvent.committed]) ?_ ?_
          fun vote hvote => (hheld.receipt vote hvote).snoc
        · simp only [Tx, hlimbo]
          exact idle_of_end (.inr rfl) hstep rfl
        · unfold appendError
          split
          · exact hun
          · exact hun
          · exact fun h => absurd hlimbo h
    · cases hf

/-- The database knows nothing of the answer. -/
theorem Tx.answered (h : w.Tx start r d) (answer : Option Answer) :
    w.Tx start r { d with answer } := by
  obtain ⟨admitted, fields, phase, limbo, receipt, answer'⟩ := d
  cases phase with
  | acquiring | opened | acknowledged | published => exact h
  | provisioned now inserted =>
    cases inserted with
    | true => exact ⟨h.holder, h.pending, h.missing⟩
    | false => exact h
  | selected now inserted latest =>
    obtain ⟨hholder, hlatest, hwritten⟩ := h
    refine ⟨hholder, hlatest, ?_⟩
    cases inserted with
    | true => exact ⟨hwritten.holder, hwritten.pending, hwritten.missing⟩
    | false => exact hwritten
  | appended a vote => exact { h with }
  | finished result =>
    cases limbo with
    | none => exact h
    | some a =>
      obtain ⟨vote, hready⟩ := h
      exact ⟨vote, { hready with }⟩

/-- A reply is given. -/
theorem Inv.answered (hw : w.Inv start es) (hd : w.dispatched r = some d) (result : Option TaskResult)
    (he : e.committed = none) (hresult : ∀ x, result = some x → d.phase = .finished x) :
    Inv start (es ++ [e]) (w.put r { d with answer := some (d.reply result) }) := by
  have hheld := hw.held r d hd
  have hquiet : ∀ a, e.committed ≠ some (r, a) := by
    intro a ha
    rw [he] at ha
    cases ha
  refine hw.quiet hd .nil (by simp) (by simp) he ?_
  have hframe : w.Held start (es ++ [e]) r d := hheld.frame rfl (fun k hk => ⟨hk, rfl⟩) hquiet
  obtain ⟨htruthful, hfailure⟩ := hheld.reply result hresult
  refine ⟨?_, hframe.told, hframe.owns, hframe.limbo, hframe.receipt, fun answer hanswer => ?_⟩
  · exact (hheld.tx.answered _).frame rfl fun k hk => ⟨hk, rfl⟩
  · cases hanswer
    exact ⟨htruthful.snoc hquiet, hfailure⟩

/-- What follows the append, and the answers. -/
theorem Inv.following (hw : w.Inv start es) (h : Step start w e w')
    (he : e = .publish r ∨ (∃ f, e = .complete r f) ∨ e = .lose r ∨ e = .respond r ∨
      e = .deadline r) : w'.Inv start (es ++ [e]) := by
  rcases he with rfl | ⟨f, rfl⟩ | rfl | rfl | rfl
  · obtain ⟨d, hd, hf⟩ := dispatched_of_bind h
    have hheld := hw.held r d hd
    split at hf
    · next vote hphase =>
        cases hf
        have htx := hheld.tx
        have htold := hheld.told
        simp only [Tx, hphase] at htx
        simp only [Told, hphase] at htold
        refine hw.quiet hd .nil (by simp) (by simp) rfl ?_
        refine hheld.advance (fun result h => ?_) (by simp [PostEvent.committed]) htx htold.snoc fun vote' hvote' => ?_
        · rw [hphase] at h
          cases h
        · cases hvote'
          exact htold.snoc
    · cases hf
  · obtain ⟨d, hd, hf⟩ := dispatched_of_bind h
    have hheld := hw.held r d hd
    split at hf
    · next vote hphase =>
        cases hf
        have hlimbo : d.limbo = none := by
          by_contra hne
          have := hheld.limbo hne
          rw [hphase] at this
          cases this
        have htx := hheld.tx
        have htold := hheld.told
        simp only [Tx, hphase] at htx
        simp only [Told, hphase] at htold
        refine hw.quiet hd .nil (by simp) (by simp) rfl ?_
        refine hheld.advance (fun result h => ?_) (by simp [PostEvent.committed]) ?_ ?_ fun vote' hvote' =>
          (hheld.receipt vote' hvote').snoc
        · rw [hphase] at h
          cases h
        · simp only [Tx, hlimbo]
          exact htx
        · simp only [Told, followUp_vote]
          exact htold.snoc
    · cases hf
  · obtain ⟨d, hd, hf⟩ := dispatched_of_bind h
    have hheld := hw.held r d hd
    have hdone : Phase.isOpen d.phase = false → (∀ result, d.phase ≠ .finished result) →
        some (w.put r { d with phase := .finished none }) = some w' →
        w'.Inv start (es ++ [.lose r]) := by
      intro hopen hnot hf
      cases hf
      have hlimbo : d.limbo = none := by
        by_contra hne
        exact hnot _ (hheld.limbo hne)
      have hidle : w.Idle r := by
        have htx := hheld.tx
        unfold Tx at htx
        cases hphase : d.phase with
        | acquiring | opened | provisioned | selected | appended =>
          rw [hphase] at hopen
          cases hopen
        | acknowledged | published =>
          rw [hphase] at htx
          exact htx
        | finished result => exact absurd hphase (hnot result)
      refine hw.quiet hd .nil (by simp) (by simp) rfl ?_
      refine hheld.advance hnot (by simp [PostEvent.committed]) ?_ ?_ fun vote hvote => (hheld.receipt vote hvote).snoc
      · simp only [Tx, hlimbo]
        exact hidle
      · exact fun h => absurd hlimbo h
    split at hf
    · next hphase => exact hdone (by rw [hphase]; rfl) (fun _ h => by rw [hphase] at h; cases h) hf
    · next hphase => exact hdone (by rw [hphase]; rfl) (fun _ h => by rw [hphase] at h; cases h) hf
    · cases hf
  · obtain ⟨d, hd, hf⟩ := dispatched_of_bind h
    have hheld := hw.held r d hd
    split at hf
    · next result hphase hanswer =>
        cases hf
        exact hw.answered hd (some result) rfl fun x hx => Option.some.inj hx ▸ hphase
    · cases hf
  · obtain ⟨d, hd, hf⟩ := dispatched_of_bind h
    split at hf
    · cases hf
      exact hw.answered hd none rfl fun x hx => nomatch hx
    · cases hf

/-- A step keeps what holds. -/
theorem Inv.step (hw : w.Inv start es) (h : Step start w e w') : w'.Inv start (es ++ [e]) := by
  cases e with
  | receive r p => exact hw.receive h
  | begin r now => exact hw.statement (r := r) h (.inl ⟨now, rfl⟩)
  | provision r => exact hw.statement (r := r) h (.inr (.inl rfl))
  | select r => exact hw.statement (r := r) h (.inr (.inr (.inl rfl)))
  | insert r => exact hw.statement (r := r) h (.inr (.inr (.inr rfl)))
  | commit r a => exact hw.ending (r := r) h (.inl ⟨a, rfl⟩)
  | commitLost r => exact hw.ending (r := r) h (.inr (.inl rfl))
  | settle r a durable => exact hw.ending (r := r) h (.inr (.inr (.inl ⟨a, durable, rfl⟩)))
  | fail r sqlstate => exact hw.ending (r := r) h (.inr (.inr (.inr ⟨sqlstate, rfl⟩)))
  | publish r => exact hw.following (r := r) h (.inl rfl)
  | complete r f => exact hw.following (r := r) h (.inr (.inl ⟨f, rfl⟩))
  | lose r => exact hw.following (r := r) h (.inr (.inr (.inl rfl)))
  | respond r => exact hw.following (r := r) h (.inr (.inr (.inr (.inl rfl))))
  | deadline r => exact hw.following (r := r) h (.inr (.inr (.inr (.inr rfl))))

/-! ## Every run -/

theorem inv_init : init.Inv start [] where
  good := good_init
  tables _ := rfl
  held _ _ h := nomatch h
  fresh _ _ := ⟨fun _ => rfl, fun _ h => nomatch h⟩
  refused _ _ h := nomatch h

theorem inv_of_run (h : Run (Step start) init es w) : w.Inv start es :=
  h.invariant (fun es w => w.Inv start es) inv_init fun _ _ _ _ _ hw hstep => hw.step hstep

theorem Inv.history_step (hw : w.Inv start es) (h : Step start w e w') (k : VoteKey) :
    (w'.committed start k).history =
      (w.committed start k).history ++ e.gains k (w.committed start k).latest := by
  rw [(hw.step h).tables, hw.tables, PostEvent.gains]
  cases he : e.committed with
  | none => rw [tablesAfter_snoc_none he, append_nil]
  | some ra =>
    obtain ⟨r, a⟩ := ra
    dsimp only
    rw [tablesAfter_snoc he]
    by_cases hk : a.key = k
    · rw [if_pos hk, history_append]
      by_cases hvote : (tablesAfter start es k).latest.map (·.vote) = some (some a.row.vote)
      · rw [if_pos hvote, if_neg fun h => h.2 hvote, append_nil]
      · rw [if_neg hvote, if_pos ⟨hk, hvote⟩]
    · rw [if_neg hk, if_neg fun h => hk h.1, append_nil]

/-- Over any interleaving of the requests, with errors, commits of unknown outcome and deadlines at any
point: the committed tables of a key are those of its committed appends one at a time, a step adds to
the history the row of the append it commits unless that repeats the latest choice, and the latest
choice is that of the last committed append. Of a dispatched request, only its own vote is ever
committed; if the answer is a receipt, the vote is committed and the receipt is that of the new row or
of the equal choice stored before it; if the answer is a failure, nothing of the vote is committed;
otherwise the answer is 202, never a handback. -/
theorem votes_appended_once (start : VoteKey → KeyVotes) (es : List PostEvent) (w : Writer)
    (h : Run (Step start) init es w) :
    (∀ k, w.committed start k = tablesAfter start es k) ∧
      (∀ e w', Step start w e w' → ∀ k,
        (w'.committed start k).history =
          (w.committed start k).history ++ e.gains k (w.committed start k).latest) ∧
      (∀ k a, (appendsTo k es).getLast? = some a →
        (w.committed start k).latest.map (·.vote) = some (some a.row.vote)) ∧
      (∀ r d, w.dispatched r = some d →
        (∀ a, (r, a) ∈ es.filterMap PostEvent.committed → d.Owns a) ∧
          ∀ answer, d.answer = some answer → Truthful start es r answer) ∧
      ∀ r answer, w.refused r = some answer → Uncommitted es r := by
  have hw := inv_of_run h
  refine ⟨hw.tables, fun e w' hstep k => hw.history_step hstep k, fun k a ha => ?_, fun r d hd => ?_,
    fun r answer hanswer => (hw.fresh r (hw.refused r answer hanswer)).2⟩
  · obtain ⟨as, has⟩ := getLast?_eq_some_iff.1 ha
    rw [hw.tables, tablesAfter, has]
    exact latest_appendAll _ _ _
  · have hheld := hw.held r d hd
    exact ⟨hheld.owns, fun answer hanswer => (hheld.answer answer hanswer).1⟩

/-- A statement that a participant agrees with. -/
private def agreeing : Preflight :=
  ⟨true, true, false, some ⟨1, 2, true⟩, some ⟨3, .agree, none, false, none⟩⟩

/-- The append of the first request at 10, and of the second, which repeats it at 11. -/
private def agreed (now : ℤ) (inserted : ℕ) : Append :=
  appendOf ⟨1, 2, true⟩ ⟨3, .agree, none, false, none⟩ now inserted

/-- The commit of the first request is not acknowledged, and the second repeats its vote. -/
private def repeated : List PostEvent :=
  [.receive 0 agreeing, .receive 1 agreeing, .begin 0 10, .begin 1 11, .provision 0, .select 0,
    .insert 0, .commitLost 0, .respond 0, .settle 0 (agreed 10 0) true, .provision 1, .select 1,
    .insert 1, .commit 1 (agreed 11 1), .publish 1, .deadline 1]

theorem votes_appended_once_repeated :
    ∃ w d answer, Run (Step fun _ => .new) init repeated w ∧ w.dispatched 1 = some d ∧
      d.answer = some answer ∧
      answer = .accepted ⟨2, ⟨3, -1, 10, true⟩, .absent, .degraded, .bestEffort⟩ ∧
      Truthful (fun _ => .new) repeated 1 answer ∧
      (w.committed (fun _ => .new) ⟨1, 2, 3⟩).history = [⟨-1, 0, false, 10, 0⟩] := by
  have hsome : (repeated.foldlM (next fun _ => .new) init).isSome := by decide
  obtain ⟨w, hw⟩ := isSome_iff_exists.1 hsome
  have hanswer : (repeated.foldlM (next fun _ => .new) init).bind
      (fun w => (w.dispatched 1).bind (·.answer)) =
        some (.accepted ⟨2, ⟨3, -1, 10, true⟩, .absent, .degraded, .bestEffort⟩) := by decide
  have hhistory : (repeated.foldlM (next fun _ => .new) init).map
      (fun w => (w.committed (fun _ => .new) ⟨1, 2, 3⟩).history) =
        some [⟨-1, 0, false, 10, 0⟩] := by decide
  rw [hw, bind_some] at hanswer
  rw [hw] at hhistory
  obtain ⟨d, hd, hanswer⟩ := bind_eq_some_iff.1 hanswer
  have hrun : Run (Step fun _ => .new) init repeated w := run_of_foldlM hw
  obtain ⟨-, -, -, hheld, -⟩ := votes_appended_once _ _ w hrun
  exact ⟨w, d, _, hrun, hd, hanswer, rfl, (hheld 1 d hd).2 _ hanswer, Option.some.inj hhistory⟩

end Writer

end Polis.Participation
