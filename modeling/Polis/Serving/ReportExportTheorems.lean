import Polis.Conversation.MathBundleTheorems
import Polis.Serving.ReportExport
import Mathlib.Data.Prod.Lex

/-!
# The exports of one conversation

The exporters read the votes in different orders. What each of them writes is told by the votes themselves:
the rows of the participants by the votes under each pid, the counts of a statement by the votes under its tid,
and the groups by the bundle. A vote that repeats an earlier one is counted again in `comments.csv`, and takes
the place of the earlier one in `participant-votes.csv`.

Reference: `server/src/report.ts`.
-/

namespace Polis.ReportExport

open List Option Breaks OrderedMap

variable {p t g : ℤ} {comments ordered : List CommentRow} {votes streamed : List VoteRow} {v w : VoteRow}
variable {raw : RawVote}

/-! ## The statement -/

/-- The rows of a table as a query returns them: in an order that the key allows. -/
structure OrderedBy {ρ κ : Type*} [LE κ] (key : ρ → κ) (table streamed : List ρ) : Prop where
  perm : streamed.Perm table
  sorted : streamed.Pairwise (key · ≤ key ·)

/-- `ORDER BY pid, tid` -/
def pidTid (v : VoteRow) : ℤ ×ₗ ℤ := toLex (v.pid, v.tid)

/-- What the tables of a conversation hold: a tid names one statement, the pids count up from 0, and every
vote has a time and is one of the three. -/
structure Recorded (comments : List CommentRow) (votes : List VoteRow) : Prop where
  tids : (comments.map (·.tid)).Nodup
  pids : ∀ v ∈ votes, 0 ≤ v.pid
  cast : ∀ v ∈ votes, ∃ vote, storageToSemantic v.vote = some vote
  created : ∀ v ∈ votes, ∃ ms, v.created = some ms

/-- The base clusters and the groups of the data. -/
def PcaData.bundle (data : PcaData) : MathBundle where
  baseIds := data.baseClusters.map (·.id)
  groupClusters := data.groupClusters
  bidToPid := data.baseClusters.map (·.members)

/-- A bundle as the engine publishes it; who is in a base cluster is in the conversation. -/
structure Coherent (data : PcaData) : Prop where
  published : data.bundle.Published
  inConv : ∀ row ∈ data.bundle.rows, ∀ pid ∈ row, pid ∈ data.inConv.getD []

/-- No vote of the list on the same statement by the same participant is later. -/
def Latest (votes : List VoteRow) (v : VoteRow) : Prop :=
  ∀ w ∈ votes, w.pid = v.pid → w.tid = v.tid → ∀ ms ∈ w.created, ∀ ms' ∈ v.created, ms ≤ ms'

/-- The votes of a participant on a statement come in the order in which they were cast. -/
def InCastOrder (streamed : List VoteRow) (p t : ℤ) : Prop :=
  (streamed.filter fun v => v.pid = p ∧ v.tid = t).Pairwise fun v w =>
    ∀ ms ∈ v.created, ∀ ms' ∈ w.created, ms ≤ ms'

/-- The cell of a row in the column of a statement. -/
def ParticipantVotesRow.cell (row : ParticipantVotesRow) (commentIds : List ℤ) (t : ℤ) : Option ℤ :=
  ((commentIds.zip row.cells).find? (·.1 = t)).bind (·.2)

/-- What `participant-votes.csv` tells. -/
structure TellsVotes (votes streamed : List VoteRow) (commentIds : List ℤ) (pcaData : Option PcaData)
    (rows : List ParticipantVotesRow) : Prop where
  once : (rows.map (·.participant)).Nodup
  voters : ∀ p, p ∈ rows.map (·.participant) ↔ ∃ v ∈ votes, v.pid = p
  columns : ∀ row ∈ rows, row.cells.length = commentIds.length
  empty : ∀ row ∈ rows, ∀ t ∈ commentIds,
    row.cell commentIds t = none ↔ ∀ v ∈ votes, v.pid = row.participant → v.tid ≠ t
  cell : ∀ row ∈ rows, ∀ t value, row.cell commentIds t = some value →
    ∃ v ∈ votes, v.pid = row.participant ∧ v.tid = t ∧ value = storageToExport v.vote ∧
      (InCastOrder streamed v.pid v.tid → Latest votes v)
  counts : ∀ row ∈ rows, (∀ v ∈ votes, v.pid = row.participant → v.tid ∈ commentIds) →
    row.nVotes = row.cells.countP (·.isSome) ∧ row.nAgree = row.cells.count (some 1) ∧
      row.nDisagree = row.cells.count (some (-1))
  group : ∀ row ∈ rows, ∀ g, row.groupId = some g ↔ ∃ data ∈ pcaData, row.participant ∈ data.bundle.pidsOfGroup g

/-- What `comments.csv` tells: how many votes of either kind were cast on each statement. -/
structure TellsComments (comments : List CommentRow) (votes : List VoteRow) (rows : List CommentStats) : Prop where
  once : (rows.map (·.comment)).Perm comments
  agrees : ∀ row ∈ rows, row.agrees =
    votes.countP fun v => v.tid = row.comment.tid ∧ storageToSemantic v.vote = some .agree
  disagrees : ∀ row ∈ rows, row.disagrees =
    votes.countP fun v => v.tid = row.comment.tid ∧ storageToSemantic v.vote = some .disagree

/-- Where nobody voted twice, the counts of a statement are those of its column. -/
def ColumnsCounted (votes : List VoteRow) (commentIds : List ℤ) (participants : List ParticipantVotesRow)
    (rows : List CommentStats) : Prop :=
  ∀ row ∈ rows, ((votes.filter (·.tid = row.comment.tid)).map (·.pid)).Nodup →
    row.agrees = participants.countP (fun p => p.cell commentIds row.comment.tid = some 1) ∧
      row.disagrees = participants.countP (fun p => p.cell commentIds row.comment.tid = some (-1))

/-- What `comment-groups.csv` tells. -/
structure TellsGroups (groupIds : List ℤ) (rows : List CommentGroupStats) : Prop where
  groups : ∀ row ∈ rows, ∀ g ∈ groupIds,
    (row.group g).agrees + (row.group g).disagrees + (row.group g).passes = (row.group g).votes
  votes : ∀ row ∈ rows, row.total_votes = (groupIds.map fun g => (row.group g).votes).sum
  agrees : ∀ row ∈ rows, row.total_agrees = (groupIds.map fun g => (row.group g).agrees).sum
  disagrees : ∀ row ∈ rows, row.total_disagrees = (groupIds.map fun g => (row.group g).disagrees).sum
  passes : ∀ row ∈ rows, row.total_passes = (groupIds.map fun g => (row.group g).passes).sum

/-! ## The sign of a vote -/

theorem semantic_eq_agree : storageToSemantic raw = some .agree ↔ raw = some (-1) := by
  unfold storageToSemantic toSemantic STORAGE_AGREE_VALUE
  cases raw with
  | none => simp
  | some value =>
    dsimp only
    split_ifs <;> simp_all

theorem semantic_eq_disagree : storageToSemantic raw = some .disagree ↔ raw = some 1 := by
  unfold storageToSemantic toSemantic STORAGE_AGREE_VALUE
  cases raw with
  | none => simp
  | some value =>
    dsimp only
    split_ifs <;> simp_all

/-- The export value of a stored one, whichever it is. -/
theorem storageToExport_eq (raw : RawVote) : storageToExport raw = -raw.getD 0 := by
  unfold storageToExport toSemantic STORAGE_AGREE_VALUE EXPORT_AGREE_VALUE EXPORT_NULL_VALUE
  cases raw with
  | none => rfl
  | some value =>
    dsimp only
    split_ifs <;> simp_all [fromSemantic]

theorem export_eq_one : storageToExport raw = 1 ↔ storageToSemantic raw = some .agree := by
  rw [storageToExport_eq, semantic_eq_agree]
  cases raw with
  | none => simp
  | some value => simp; omega

theorem export_eq_neg_one :
    storageToExport raw = -1 ↔ storageToSemantic raw = some .disagree := by
  rw [storageToExport_eq, semantic_eq_disagree]
  cases raw with
  | none => simp
  | some value => simp

/-! ## The pass over the participants -/

section Pass

variable {β ρ : Type*} {cleared : β} {gather : β → VoteRow → β} {participantRow : ℤ → β → ρ}

/-- The pass as a control break: -1 stands for no open block. -/
def Pass.ofBreaks (cleared : β) (b : Breaks ℤ β ρ) : Pass β ρ :=
  match b.opened with
  | none => ⟨-1, cleared, b.closed⟩
  | some (pid, gathered) => ⟨pid, gathered, b.closed⟩

theorem Pass.onRow_ofBreaks {b : Breaks ℤ β ρ} (hv : v.pid ≠ -1)
    (hb : ∀ e ∈ b.opened, e.1 ≠ -1) :
    Pass.onRow cleared gather participantRow (.ofBreaks cleared b) v =
      .ofBreaks cleared (b.feed (·.pid) cleared gather participantRow v) := by
  obtain ⟨opened, closed⟩ := b
  cases opened with
  | none => simp [Pass.onRow, Pass.ofBreaks, Pass.sendCurrent, feed, hv]
  | some e =>
    have he : e.1 ≠ -1 := hb e rfl
    by_cases h : v.pid = e.1
    · simp [Pass.onRow, Pass.ofBreaks, feed, h]
    · simp [Pass.onRow, Pass.ofBreaks, Pass.sendCurrent, feed, h, he]

theorem Pass.foldl_ofBreaks {l : List VoteRow} {b : Breaks ℤ β ρ} (hl : ∀ v ∈ l, v.pid ≠ -1)
    (hb : ∀ e ∈ b.opened, e.1 ≠ -1) :
    l.foldl (Pass.onRow cleared gather participantRow) (.ofBreaks cleared b) =
        .ofBreaks cleared (l.foldl (feed (·.pid) cleared gather participantRow) b) ∧
      ∀ e ∈ (l.foldl (feed (·.pid) cleared gather participantRow) b).opened, e.1 ≠ -1 := by
  induction l generalizing b with
  | nil => exact ⟨rfl, hb⟩
  | cons v l ih =>
    obtain ⟨hv, hl⟩ := forall_mem_cons.1 hl
    rw [foldl_cons, foldl_cons, Pass.onRow_ofBreaks hv hb]
    refine ih hl fun e he => ?_
    unfold feed at he
    split at he
    · obtain rfl := Option.some.inj he
      exact hv
    next k x hopened =>
      split at he
      · obtain rfl := Option.some.inj he
        exact hb (k, x) hopened
      · obtain rfl := Option.some.inj he
        exact hv

/-- One row for each participant, of all the votes under their pid. -/
theorem participantRows_eq {l : List VoteRow} (hl : ∀ v ∈ l, v.pid ≠ -1) (hsorted : l.Pairwise (·.pid ≤ ·.pid)) :
    participantRows cleared gather participantRow l =
      (breaks (·.pid) l).map fun pid =>
        participantRow pid ((l.filter (·.pid = pid)).foldl gather cleared) := by
  obtain ⟨hpass, hopen⟩ := @Pass.foldl_ofBreaks β ρ cleared gather participantRow l ⟨none, []⟩ hl nofun
  have hfinish := @finish_feed VoteRow ℤ β ρ _ (·.pid) cleared gather participantRow l hsorted
  refine Eq.trans ?_ hfinish
  have hstart : (⟨-1, cleared, []⟩ : Pass β ρ) = .ofBreaks cleared ⟨none, []⟩ := rfl
  rw [participantRows, hstart, hpass]
  revert hopen
  generalize l.foldl (feed (·.pid) cleared gather participantRow) ⟨none, []⟩ = b
  intro hopen
  obtain ⟨opened, closed⟩ := b
  cases opened with
  | none => simp [Pass.ofBreaks, Pass.sendCurrent, finish]
  | some e =>
    have he : e.1 ≠ -1 := hopen e rfl
    simp [Pass.ofBreaks, Pass.sendCurrent, finish, he]

end Pass

theorem OrderedBy.pids (h : OrderedBy pidTid votes streamed) : streamed.Pairwise (·.pid ≤ ·.pid) :=
  h.sorted.imp fun {v w} hle => by
    rcases Prod.Lex.toLex_le_toLex.1 hle with hlt | ⟨heq, -⟩
    · exact hlt.le
    · exact heq.le

/-! ## participant-votes.csv -/

/-- The last vote of a participant on a statement. -/
def lastVote (streamed : List VoteRow) (p t : ℤ) : Option VoteRow :=
  lastHit (fun v => decide (v.tid = t)) (streamed.filter (·.pid = p))

/-- What is gathered of a participant. -/
def votesOf (streamed : List VoteRow) (p : ℤ) : OrderedMap ℤ RawVote :=
  .ofWrites (·.tid) (·.vote) (streamed.filter (·.pid = p))

theorem get_votesOf : (votesOf streamed p).get t = (lastVote streamed p t).map (·.vote) :=
  get_ofWrites _ t

theorem mem_keys_votesOf : t ∈ (votesOf streamed p).keys ↔ ∃ v ∈ streamed, v.pid = p ∧ v.tid = t := by
  rw [votesOf, mem_keys_ofWrites]
  simp [and_assoc]

theorem lastVote_some (h : lastVote streamed p t = some v) : v ∈ streamed ∧ v.pid = p ∧ v.tid = t := by
  obtain ⟨hv, ht⟩ := lastHit_some h
  obtain ⟨hv, hp⟩ := mem_filter.1 hv
  exact ⟨hv, of_decide_eq_true hp, of_decide_eq_true ht⟩

theorem lastVote_isSome : (lastVote streamed p t).isSome ↔ ∃ v ∈ streamed, v.pid = p ∧ v.tid = t := by
  rw [lastVote, lastHit_isSome]
  simp [and_assoc]

/-- The last vote is the latest one where the votes come in the order in which they were cast. -/
theorem lastVote_latest (hperm : streamed.Perm votes) (h : lastVote streamed p t = some v)
    (hcast : InCastOrder streamed p t) : Latest votes v := by
  obtain ⟨-, rfl, rfl⟩ := lastVote_some h
  intro w hw hpid htid ms hms ms' hms'
  have horder : ((streamed.filter (·.pid = v.pid)).filter fun w => decide (w.tid = v.tid)).Pairwise
      fun v w => ∀ ms ∈ v.created, ∀ ms' ∈ w.created, ms ≤ ms' := by
    rw [List.filter_filter]
    refine (congrArg _ (filter_congr fun w _ => ?_)).mp hcast
    rw [Bool.decide_and, Bool.and_comm]
  have hmem : w ∈ streamed.filter (·.pid = v.pid) :=
    mem_filter.2 ⟨hperm.mem_iff.2 hw, decide_eq_true hpid⟩
  rcases lastHit_after horder h w hmem (decide_eq_true htid) with rfl | hle
  · exact (Option.some.inj ((mem_def.1 hms).symm.trans hms')).le
  · exact hle ms hms ms' hms'

theorem find_zip_map {f : ℤ → Option ℤ} (ids : List ℤ) (t : ℤ) :
    ((ids.zip (ids.map f)).find? (·.1 = t)).bind (·.2) = if t ∈ ids then f t else none := by
  induction ids with
  | nil => rfl
  | cons id ids ih =>
    rw [map_cons, zip_cons_cons, find?_cons]
    by_cases h : id = t
    · simp [h]
    · simp only [h, decide_false, ih, mem_cons, Ne.symm h, false_or]

section Votes

variable {ctx : ParticipantExportContext}

theorem sendParticipantVotesSummary_eq (hl : ∀ v ∈ streamed, v.pid ≠ -1)
    (hsorted : streamed.Pairwise (·.pid ≤ ·.pid)) :
    sendParticipantVotesSummary ctx streamed =
      (breaks (·.pid) streamed).map fun pid => votesRow ctx pid (votesOf streamed pid) :=
  participantRows_eq hl hsorted

/-- The cell of a statement is that of the last vote on it. -/
theorem cell_votesRow : (votesRow ctx p (votesOf streamed p)).cell ctx.commentIds t =
    if t ∈ ctx.commentIds then (lastVote streamed p t).map (storageToExport ·.vote) else none := by
  rw [ParticipantVotesRow.cell, votesRow, find_zip_map, get_votesOf, Option.map_map]
  rfl

theorem cells_votesRow (q : Option ℤ → Bool) :
    (votesRow ctx p (votesOf streamed p)).cells.countP q =
      ctx.commentIds.countP fun t => q (((votesOf streamed p).get t).map storageToExport) := by
  rw [votesRow, countP_map]
  rfl

/-- The counts of a row are those of its cells, if every statement that was voted on has a column. -/
theorem counts_votesRow (hids : ctx.commentIds.Nodup)
    (hcolumn : ∀ v ∈ streamed, v.pid = p → v.tid ∈ ctx.commentIds) :
    let row := votesRow ctx p (votesOf streamed p)
    row.nVotes = row.cells.countP (·.isSome) ∧ row.nAgree = row.cells.count (some 1) ∧
      row.nDisagree = row.cells.count (some (-1)) := by
  have hsub : (votesOf streamed p).keys ⊆ ctx.commentIds := fun t ht => by
    obtain ⟨v, hv, hp, rfl⟩ := mem_keys_votesOf.1 ht
    exact hcolumn v hv hp
  refine ⟨?_, ?_, ?_⟩
  · rw [cells_votesRow]
    refine (size_eq_countP hids hsub).trans (countP_congr fun t _ => ?_)
    rw [isSome_map]
  · rw [List.count, cells_votesRow]
    refine (countP_values hids hsub _).trans (countP_congr fun t _ => ?_)
    cases (votesOf streamed p).get t with
    | none => simp
    | some raw => simp [export_eq_one]
  · rw [List.count, cells_votesRow]
    refine (countP_values hids hsub _).trans (countP_congr fun t _ => ?_)
    cases (votesOf streamed p).get t with
    | none => simp
    | some raw => simp [export_eq_neg_one]

/-- The resolver finds the group whose members include the participant. -/
theorem createGroupIdResolver_eq_some {data : PcaData} (h : Coherent data) :
    createGroupIdResolver (some data) p = some g ↔ p ∈ data.bundle.pidsOfGroup g := by
  have hgroups : data.bundle.groups = data.groupClusters.getD [] := rfl
  rw [MathBundle.mem_pidsOfGroup]
  simp only [createGroupIdResolver]
  cases hbase : data.baseClusters with
  | none =>
    refine iff_of_false (by simp) ?_
    rintro ⟨G, -, -, bid, -, hpid⟩
    obtain ⟨i, row, -, hrow, -⟩ := h.published.mem_rowOf.1 hpid
    simp [PcaData.bundle, MathBundle.rows, hbase] at hrow
  | some base =>
    have hids : data.bundle.ids = base.id := by simp [PcaData.bundle, MathBundle.ids, hbase]
    have hrows : data.bundle.rows = base.members := by simp [PcaData.bundle, MathBundle.rows, hbase]
    dsimp only
    split
    next hnil =>
      refine iff_of_false (by simp) ?_
      rintro ⟨G, hG, -⟩
      rw [hgroups, length_eq_zero_iff.1 hnil] at hG
      cases hG
    dsimp only
    by_cases hin : p ∈ data.inConv.getD []
    case neg =>
      rw [if_neg hin]
      refine iff_of_false (by simp) ?_
      rintro ⟨G, -, -, bid, -, hpid⟩
      obtain ⟨i, row, -, hrow, hp⟩ := h.published.mem_rowOf.1 hpid
      exact hin (h.inConv row (mem_of_getElem? hrow) p hp)
    rw [if_pos hin, hgroups]
    -- The base cluster that the loop stops at is the one that the participant is in.
    have hbid : ∀ bid, p ∈ data.bundle.rowOf bid ↔
        (base.members.findIdx? (p ∈ ·)).bind (base.id[·]?) = some bid := by
      intro bid
      rw [← h.published.bidForPid_eq_some, MathBundle.bidForPid, hrows, hids]
      cases hfind : base.members.findIdx? (p ∈ ·) with
      | none => simp
      | some i =>
        obtain ⟨hlt, -, -⟩ := findIdx?_eq_some_iff_getElem.1 hfind
        have hid : i < base.id.length := by
          rw [← hids, ← h.published.aligned, hrows]
          exact hlt
        simp [hid]
    unfold groupIdOf
    cases hfind : base.members.findIdx? (p ∈ ·) with
    | none => simp [hbid, hfind]
    | some i =>
      dsimp only
      cases hid : base.id[i]? with
      | none => simp [hbid, hfind, hid]
      | some bid =>
        have honly : ∀ bid', p ∈ data.bundle.rowOf bid' ↔ bid' = bid := fun bid' => by
          rw [hbid, hfind, bind_some, hid, Option.some.injEq, eq_comm]
        dsimp only
        rw [map_eq_some_iff]
        constructor
        · rintro ⟨G, hG, rfl⟩
          exact ⟨G, mem_of_find?_eq_some hG, rfl, bid,
            by simpa using find?_some hG, (honly bid).2 rfl⟩
        · rintro ⟨G, hG, rfl, bid', hmem, hpid⟩
          obtain rfl := (honly bid').1 hpid
          cases hG' : (data.groupClusters.getD []).find? (bid' ∈ ·.members) with
          | none => simpa [hmem] using find?_eq_none.1 hG' G hG
          | some H =>
            refine ⟨H, rfl, congrArg _ ?_⟩
            exact h.published.group_unique (mem_of_find?_eq_some hG') hG
              (by simpa using find?_some hG') hmem

theorem tellsVotes {pcaData : Option PcaData} (h : Recorded comments votes)
    (hcomments : OrderedBy (·.tid) comments ordered) (hvotes : OrderedBy pidTid votes streamed)
    (hdata : ∀ data ∈ pcaData, Coherent data) :
    TellsVotes votes streamed (ordered.map (·.tid)) pcaData
      (sendParticipantVotesSummary (loadParticipantExportContext ordered pcaData) streamed) := by
  have hids : (ordered.map (·.tid)).Nodup := (hcomments.perm.map _).nodup_iff.2 h.tids
  have hpids : ∀ v ∈ streamed, v.pid ≠ -1 := fun v hv => by
    have := h.pids v (hvotes.perm.mem_iff.1 hv)
    omega
  have hmem : ∀ {v}, v ∈ streamed ↔ v ∈ votes := hvotes.perm.mem_iff
  generalize hctx : loadParticipantExportContext ordered pcaData = ctx
  have hcols : ctx.commentIds = ordered.map (·.tid) := hctx ▸ rfl
  have hgroup : ctx.getGroupId = createGroupIdResolver pcaData := hctx ▸ rfl
  rw [sendParticipantVotesSummary_eq hpids hvotes.pids, ← hcols]
  have hparticipants : ((breaks (·.pid) streamed).map fun pid =>
      votesRow ctx pid (votesOf streamed pid)).map (·.participant) = breaks (·.pid) streamed := by
    rw [List.map_map]
    exact List.map_id _
  refine ⟨?once, ?voters, ?columns, ?empty, ?cell, ?counts, ?group⟩
  case once =>
    rw [hparticipants]
    exact breaks_nodup streamed
  case voters =>
    intro p
    rw [hparticipants, mem_breaks]
    exact exists_congr fun v => and_congr_left fun _ => hmem
  all_goals simp only [List.forall_mem_map]
  case columns => exact fun p _ => length_map _
  case empty =>
    intro p _ t ht
    rw [cell_votesRow, if_pos ht, map_eq_none_iff, ← not_isSome_iff_eq_none, lastVote_isSome]
    constructor
    · exact fun hnone v hv hp htid => hnone ⟨v, hmem.2 hv, hp, htid⟩
    · rintro hall ⟨v, hv, hp, htid⟩
      exact hall v (hmem.1 hv) hp htid
  case cell =>
    intro p _ t value hcell
    rw [cell_votesRow] at hcell
    split at hcell
    case isFalse => cases hcell
    obtain ⟨v, hv, rfl⟩ := map_eq_some_iff.1 hcell
    obtain ⟨hstreamed, rfl, rfl⟩ := lastVote_some hv
    exact ⟨v, hmem.1 hstreamed, rfl, rfl, rfl, lastVote_latest hvotes.perm hv⟩
  case counts =>
    intro p _ hcolumn
    exact counts_votesRow (hcols ▸ hids) fun v hv hp => hcolumn v (hmem.1 hv) hp
  case group =>
    intro p _ g
    change ctx.getGroupId p = some g ↔ ∃ data ∈ pcaData, p ∈ data.bundle.pidsOfGroup g
    rw [hgroup]
    cases pcaData with
    | none => simp [createGroupIdResolver]
    | some data => simpa using createGroupIdResolver_eq_some (hdata data rfl)

end Votes

/-! ## comments.csv -/

section Comments

variable {rows : List CommentStats} {row : CommentStats} {index : OrderedMap ℤ ℕ} {i : ℕ}

@[simp] theorem count_comment : (row.count v).comment = row.comment := by
  unfold CommentStats.count
  cases storageToSemantic v.vote with
  | none => simp only; split <;> rfl
  | some vote => cases vote <;> (simp only; split <;> rfl)

theorem count_agrees : (row.count v).agrees =
    row.agrees + if storageToSemantic v.vote = some .agree then 1 else 0 := by
  unfold CommentStats.count
  cases storageToSemantic v.vote with
  | none => simp only; split <;> rfl
  | some vote => cases vote <;> (simp only; split <;> simp)

theorem count_disagrees : (row.count v).disagrees =
    row.disagrees + if storageToSemantic v.vote = some .disagree then 1 else 0 := by
  unfold CommentStats.count
  cases storageToSemantic v.vote with
  | none => simp only; split <;> rfl
  | some vote => cases vote <;> (simp only; split <;> simp)

/-- Counting a list of votes into a row. -/
theorem foldl_count (l : List VoteRow) (row : CommentStats) :
    (l.foldl CommentStats.count row).comment = row.comment ∧
      (l.foldl CommentStats.count row).agrees =
        row.agrees + l.countP (storageToSemantic ·.vote = some .agree) ∧
      (l.foldl CommentStats.count row).disagrees =
        row.disagrees + l.countP (storageToSemantic ·.vote = some .disagree) := by
  induction l generalizing row with
  | nil => simp
  | cons v l ih =>
    obtain ⟨hcomment, hagrees, hdisagrees⟩ := ih (row.count v)
    refine ⟨hcomment.trans count_comment, ?_, ?_⟩
    · rw [foldl_cons, hagrees, count_agrees, countP_cons, Nat.add_right_comm, Nat.add_assoc]
      simp only [decide_eq_true_eq]
    · rw [foldl_cons, hdisagrees, count_disagrees, countP_cons, Nat.add_right_comm, Nat.add_assoc]
      simp only [decide_eq_true_eq]

/-- The row at a position counts the votes that are looked up there. -/
theorem foldl_countVote (l : List VoteRow) (rows : List CommentStats) :
    (l.foldl (countVote index) rows)[i]? =
      rows[i]?.map fun row => (l.filter fun v => index.get v.tid = some i).foldl CommentStats.count row := by
  induction l generalizing rows with
  | nil => simp
  | cons v l ih =>
    rw [foldl_cons, ih, countVote]
    cases hget : index.get v.tid with
    | none => simp [hget]
    | some j =>
      by_cases hj : j = i
      · subst hj
        simp [hget, Function.comp_def]
      · simp [hget, hj]

/-- The position of a tid. -/
theorem commentsByTid_eq_some (htids : (comments.map (·.tid)).Nodup) :
    (commentsByTid comments).get t = some i ↔ ∃ comment, comments[i]? = some comment ∧ comment.tid = t := by
  rw [commentsByTid, get_ofWrites, map_eq_some_iff]
  constructor
  · rintro ⟨⟨comment, j⟩, hlast, rfl⟩
    obtain ⟨hmem, ht⟩ := lastHit_some hlast
    exact ⟨comment, mk_mem_zipIdx_iff_getElem?.1 hmem, of_decide_eq_true ht⟩
  · rintro ⟨comment, hi, rfl⟩
    have hmem : (comment, i) ∈ comments.zipIdx := mk_mem_zipIdx_iff_getElem?.2 hi
    have hsome : (lastHit (fun e : CommentRow × ℕ => decide (e.1.tid = comment.tid)) comments.zipIdx).isSome :=
      lastHit_isSome.2 ⟨(comment, i), hmem, by simp⟩
    obtain ⟨⟨comment', j⟩, hlast⟩ := isSome_iff_exists.1 hsome
    refine ⟨(comment', j), hlast, ?_⟩
    obtain ⟨hmem', ht⟩ := lastHit_some hlast
    have hj := mk_mem_zipIdx_iff_getElem?.1 hmem'
    have hlt : j < (comments.map (·.tid)).length := by
      rw [length_map]
      exact (List.getElem?_eq_some_iff.1 hj).1
    refine (getElem?_inj hlt htids).1 ?_
    rw [getElem?_map, getElem?_map, hi, hj]
    exact congrArg some (of_decide_eq_true ht)

/-- Each row is that of a comment with the votes on it counted. -/
theorem sendCommentSummary_mem (htids : (comments.map (·.tid)).Nodup)
    (hrow : row ∈ sendCommentSummary comments streamed) :
    row.agrees = streamed.countP (fun v => v.tid = row.comment.tid ∧ storageToSemantic v.vote = some .agree) ∧
      row.disagrees =
        streamed.countP fun v => v.tid = row.comment.tid ∧ storageToSemantic v.vote = some .disagree := by
  rw [sendCommentSummary, (perm_insertionSort _ _).mem_iff] at hrow
  obtain ⟨i, hi⟩ := mem_iff_getElem?.1 hrow
  rw [foldl_countVote, List.getElem?_map, Option.map_map, Option.map_eq_some_iff] at hi
  obtain ⟨comment, hcomment, rfl⟩ := hi
  obtain ⟨hc, ha, hd⟩ := foldl_count
    (streamed.filter fun v => (commentsByTid comments).get v.tid = some i) (.fresh comment)
  have hfilter : ∀ vote : Vote,
      (streamed.filter fun v => (commentsByTid comments).get v.tid = some i).countP
          (storageToSemantic ·.vote = some vote) =
        streamed.countP fun v => v.tid = comment.tid ∧ storageToSemantic v.vote = some vote := by
    intro vote
    rw [countP_filter]
    refine countP_congr fun v _ => ?_
    have hlook : (commentsByTid comments).get v.tid = some i ↔ v.tid = comment.tid := by
      rw [commentsByTid_eq_some htids, hcomment]
      simp [eq_comm]
    simp [hlook, and_comm]
  rw [Function.comp_apply, hc, ha, hd, hfilter, hfilter]
  exact ⟨Nat.zero_add _, Nat.zero_add _⟩

theorem countVote_comments (l : List VoteRow) (rows : List CommentStats) :
    (l.foldl (countVote index) rows).map (·.comment) = rows.map (·.comment) := by
  refine ext_getElem? fun i => ?_
  rw [List.getElem?_map, List.getElem?_map, foldl_countVote, Option.map_map]
  congr 1
  funext row
  exact (foldl_count _ row).1

theorem tellsComments (h : Recorded comments votes) (hvotes : streamed.Perm votes) :
    TellsComments comments votes (sendCommentSummary comments streamed) := by
  refine ⟨?once, fun row hrow => ?agrees, fun row hrow => ?disagrees⟩
  case once =>
    refine ((perm_insertionSort _ _).map _).trans (.of_eq ?_)
    rw [countVote_comments, List.map_map]
    exact List.map_id _
  case agrees => rw [(sendCommentSummary_mem h.tids hrow).1, hvotes.countP_eq]
  case disagrees => rw [(sendCommentSummary_mem h.tids hrow).2, hvotes.countP_eq]

end Comments

/-! ## A statement and its column -/

/-- Where nobody voted twice on a statement, the participants whose last vote is of a kind are those who
cast a vote of this kind. -/
theorem countP_lastVote (honce : ((streamed.filter (·.tid = t)).map (·.pid)).Nodup) (q : VoteRow → Bool) :
    (breaks (·.pid) streamed).countP (fun p => (lastVote streamed p t).any q) =
      streamed.countP fun v => decide (v.tid = t) && q v := by
  have hvoters : ((streamed.filter fun v => decide (v.tid = t) && q v).map (·.pid)).Nodup := by
    refine honce.sublist (List.Sublist.map _ ?_)
    have : streamed.filter (fun v => decide (v.tid = t) && q v) = (streamed.filter (·.tid = t)).filter q := by
      rw [List.filter_filter]
      refine filter_congr fun v _ => Bool.and_comm _ _
    rw [this]
    exact filter_sublist
  have hperm : ((breaks (·.pid) streamed).filter fun p => (lastVote streamed p t).any q).Perm
      ((streamed.filter fun v => decide (v.tid = t) && q v).map (·.pid)) := by
    refine (perm_ext_iff_of_nodup ((breaks_nodup streamed).filter _) hvoters).2 fun p => ?_
    rw [mem_filter, Option.any_eq_true, List.mem_map]
    constructor
    · rintro ⟨-, v, hv, hq⟩
      obtain ⟨hmem, hp, ht⟩ := lastVote_some hv
      exact ⟨v, mem_filter.2 ⟨hmem, by simp [ht, hq]⟩, hp⟩
    · rintro ⟨v, hv, rfl⟩
      obtain ⟨hmem, hv⟩ := mem_filter.1 hv
      obtain ⟨ht, hq⟩ := Bool.and_eq_true_iff.1 hv
      have ht := of_decide_eq_true ht
      refine ⟨mem_breaks.2 ⟨v, hmem, rfl⟩, v, ?_, hq⟩
      -- The last vote is on the same statement by the same participant, who has one.
      obtain ⟨w, hw⟩ := isSome_iff_exists.1 (lastVote_isSome.2 ⟨v, hmem, rfl, ht⟩)
      obtain ⟨hwmem, hwp, hwt⟩ := lastVote_some hw
      have hsame : w = v := inj_on_of_nodup_map honce
        (mem_filter.2 ⟨hwmem, decide_eq_true hwt⟩) (mem_filter.2 ⟨hmem, decide_eq_true ht⟩) hwp
      rw [hw, hsame]
  rw [countP_eq_length_filter, hperm.length_eq, length_map, ← countP_eq_length_filter]

theorem columnsCounted {pcaData : Option PcaData} {byTid : List VoteRow} (h : Recorded comments votes)
    (hcomments : OrderedBy (·.tid) comments ordered) (hvotes : OrderedBy pidTid votes streamed)
    (hcounted : byTid.Perm votes) :
    ColumnsCounted votes (ordered.map (·.tid))
      (sendParticipantVotesSummary (loadParticipantExportContext ordered pcaData) streamed)
      (sendCommentSummary comments byTid) := by
  intro row hrow honce
  have hpids : ∀ v ∈ streamed, v.pid ≠ -1 := fun v hv => by
    have := h.pids v (hvotes.perm.mem_iff.1 hv)
    omega
  have honce : ((streamed.filter (·.tid = row.comment.tid)).map (·.pid)).Nodup :=
    (((hvotes.perm.filter _).map _).nodup_iff).2 honce
  have ht : row.comment.tid ∈ ordered.map (·.tid) := by
    have hmem : row.comment ∈ comments :=
      (tellsComments h hcounted).once.mem_iff.1 (mem_map_of_mem hrow)
    exact mem_map_of_mem (hcomments.perm.mem_iff.2 hmem)
  obtain ⟨hagrees, hdisagrees⟩ := sendCommentSummary_mem h.tids hrow
  generalize hctx : loadParticipantExportContext ordered pcaData = ctx
  have hcols : ctx.commentIds = ordered.map (·.tid) := hctx ▸ rfl
  rw [sendParticipantVotesSummary_eq hpids hvotes.pids, countP_map, countP_map, ← hcols]
  have hcell : ∀ (vote : Vote) (value : ℤ),
      (∀ raw, storageToExport raw = value ↔ storageToSemantic raw = some vote) →
      byTid.countP (fun v => v.tid = row.comment.tid ∧ storageToSemantic v.vote = some vote) =
        (breaks (·.pid) streamed).countP ((fun p => decide (p.cell ctx.commentIds row.comment.tid =
          some value)) ∘ fun pid => votesRow ctx pid (votesOf streamed pid)) := by
    intro vote value hvalue
    have hlast := countP_lastVote honce fun v => decide (storageToSemantic v.vote = some vote)
    rw [(hcounted.trans hvotes.perm.symm).countP_eq]
    refine Eq.trans ?_ (hlast.symm.trans ?_)
    · exact countP_congr fun v _ => by simp
    · refine countP_congr fun p _ => ?_
      rw [Function.comp_apply, cell_votesRow, hcols, if_pos ht]
      cases lastVote streamed p row.comment.tid with
      | none => simp
      | some v => simp [hvalue]
  exact ⟨hagrees.trans (hcell .agree 1 fun _ => export_eq_one),
    hdisagrees.trans (hcell .disagree (-1) fun _ => export_eq_neg_one)⟩

/-! ## comment-groups.csv -/

section Groups

variable {groupIds : List ℤ} {texts : OrderedMap ℤ Text} {stats : CommentGroupStats}
  {commentStats : OrderedMap ℤ CommentGroupStats}

/-- A statement has stats for every group, whose votes are of one of three kinds. -/
structure Summed (groupIds : List ℤ) (stats : CommentGroupStats) : Prop where
  keys : stats.group_stats.keys = appendNew [] groupIds
  sums : ∀ g s, stats.group_stats.get g = some s → s.agrees + s.disagrees + s.passes = s.votes

theorem Summed.fresh (tid : ℤ) : Summed groupIds (.fresh groupIds texts tid) where
  keys := (keys_ofWrites groupIds).trans (by rw [List.map_id])
  sums g s hs := by
    rw [CommentGroupStats.fresh, get_ofWrites] at hs
    obtain ⟨-, -, rfl⟩ := map_eq_some_iff.1 hs
    rfl

theorem Summed.set (h : Summed groupIds stats) (hg : g ∈ groupIds) (votes : GroupVotes) :
    Summed groupIds { stats with group_stats := stats.group_stats.set g votes.stats } where
  keys := by
    rw [keys_set, if_pos, h.keys]
    rw [h.keys, mem_appendNew]
    exact .inr hg
  sums g' s hs := by
    rw [get_set] at hs
    split at hs
    · obtain rfl := Option.some.inj hs
      simp only [GroupVotes.stats]
      omega
    · exact h.sums g' s hs

/-- The votes of a group on a statement leave the stats summed. -/
theorem recordVotes_summed (h : ∀ t s, commentStats.get t = some s → Summed groupIds s) (hg : g ∈ groupIds)
    (entry : ℤ × GroupVotes) :
    ∀ t s, (recordVotes groupIds texts g commentStats entry).get t = some s → Summed groupIds s := by
  intro t s hs
  rw [recordVotes, get_set] at hs
  split at hs
  · obtain rfl := Option.some.inj hs
    refine Summed.set ?_ hg entry.2
    cases hget : commentStats.get entry.1 with
    | none => exact Summed.fresh entry.1
    | some stats => exact h entry.1 stats hget
  · exact h t s hs

theorem recordGroup_summed {groupVotes : OrderedMap ℤ (OrderedMap ℤ GroupVotes)}
    (h : ∀ t s, commentStats.get t = some s → Summed groupIds s) (hg : g ∈ groupIds) :
    ∀ t s, (recordGroup groupIds texts groupVotes commentStats g).get t = some s → Summed groupIds s := by
  unfold recordGroup
  split
  · exact h
  next votes _ =>
    generalize votes.entries = entries
    induction entries generalizing commentStats with
    | nil => exact h
    | cons entry entries ih => exact ih (recordVotes_summed h hg entry)

theorem commentGroupStats_summed {φ : Type*} {data : GroupData φ} (hrow : stats ∈ commentGroupStats data comments) :
    ∃ s, Summed data.groupIds s ∧ stats = s.withTotals := by
  have hfold : ∀ (gs : List ℤ) (commentStats : OrderedMap ℤ CommentGroupStats), gs ⊆ data.groupIds →
      (∀ t s, commentStats.get t = some s → Summed data.groupIds s) → ∀ t s,
      (gs.foldl (recordGroup data.groupIds (commentTexts comments) data.groupVotes) commentStats).get t =
        some s → Summed data.groupIds s := by
    intro gs
    induction gs with
    | nil => exact fun _ _ h => h
    | cons g gs ih =>
      intro commentStats hsub h
      exact ih _ (fun g' hg' => hsub (mem_cons_of_mem _ hg'))
        (recordGroup_summed h (hsub mem_cons_self))
  obtain ⟨s, hs, rfl⟩ := mem_map.1 hrow
  obtain ⟨e, he, rfl⟩ := mem_map.1 hs
  refine ⟨e.2, ?_, rfl⟩
  exact hfold data.groupIds .empty (fun _ h => h) (fun t s h => by simp at h) e.1 e.2 (get_eq_some.2 he)

theorem tellsGroups {φ : Type*} {data : GroupData φ} (hgroups : data.groupIds.Nodup)
    (filterFN : Option (FilterInput φ → Bool)) :
    TellsGroups data.groupIds (sendCommentGroupsSummary data comments filterFN) := by
  have hsum : ∀ row ∈ sendCommentGroupsSummary data comments filterFN,
      ∃ s, Summed data.groupIds s ∧ row = s.withTotals := fun row hrow =>
    commentGroupStats_summed (mem_filter.1 hrow).1
  have hkeys : appendNew [] data.groupIds = data.groupIds := appendNew_of_nodup hgroups
  have htotal : ∀ {s : CommentGroupStats} (f : GroupStats → ℤ), Summed data.groupIds s →
      (s.group_stats.values.map f).sum = (data.groupIds.map fun g => f (s.withTotals.group g)).sum := by
    intro s f h
    rw [values_eq_map_get s.group_stats ⟨0, 0, 0, 0⟩, h.keys, hkeys, List.map_map]
    rfl
  refine ⟨fun row hrow g _ => ?groups, fun row hrow => ?votes, fun row hrow => ?agrees, fun row hrow => ?disagrees,
    fun row hrow => ?passes⟩
  all_goals obtain ⟨s, h, rfl⟩ := hsum row hrow
  case groups =>
    rw [CommentGroupStats.group]
    cases hget : s.withTotals.group_stats.get g with
    | none => rfl
    | some group => exact h.sums g group hget
  case votes => exact htotal (·.votes) h
  case agrees => exact htotal (·.agrees) h
  case disagrees => exact htotal (·.disagrees) h
  case passes => exact htotal (·.passes) h

end Groups

/-! ## One story -/

/-- The exports of a conversation, each from its own query. -/
theorem exports_tell {φ : Type*} {pcaData : Option PcaData} {data : GroupData φ} {byTid : List VoteRow}
    (h : Recorded comments votes) (hcomments : OrderedBy (·.tid) comments ordered)
    (hparticipants : OrderedBy pidTid votes streamed) (hcounted : OrderedBy (·.tid) votes byTid)
    (hdata : ∀ data ∈ pcaData, Coherent data) (hgroups : data.groupIds.Nodup)
    (filterFN : Option (FilterInput φ → Bool)) :
    let ids := ordered.map (·.tid)
    let participants := sendParticipantVotesSummary (loadParticipantExportContext ordered pcaData) streamed
    let counts := sendCommentSummary comments byTid
    TellsVotes votes streamed ids pcaData participants ∧ TellsComments comments votes counts ∧
      ColumnsCounted votes ids participants counts ∧
      TellsGroups data.groupIds (sendCommentGroupsSummary data comments filterFN) :=
  ⟨tellsVotes h hcomments hparticipants hdata, tellsComments h hcounted.perm,
    columnsCounted h hcomments hparticipants hcounted.perm, tellsGroups hgroups filterFN⟩

private def statement : CommentRow :=
  { tid := 0, pid := 0, created := some 1, txt := "statement".toList, mod := 0, velocity := 1 }

/-- A vote of participant 0 on statement `t`. -/
private def cast (t raw ms : ℤ) : VoteRow :=
  { pid := 0, tid := t, vote := some raw, created := some ms, high_priority := some false }

private def groups : PcaData where
  inConv := some [0]
  baseClusters := some ⟨[0], [[0]]⟩
  groupClusters := some [⟨0, [0]⟩]

private def groupVotes : GroupData ℚ where
  groupIds := [0]
  groupVotes := .ofWrites (fun e => e.1) (fun e => e.2) [(0, .ofWrites (fun e => e.1) (fun e => e.2) [(0, ⟨1, 0, 1⟩)])]
  groupAwareConsensus := .empty
  commentExtremity := []
  tids := []

theorem exports_tell_of_one_vote :
    let participants :=
      sendParticipantVotesSummary (loadParticipantExportContext [statement] (some groups)) [cast 0 (-1) 2]
    let counts := sendCommentSummary [statement] [cast 0 (-1) 2]
    TellsVotes [cast 0 (-1) 2] [cast 0 (-1) 2] [0] (some groups) participants ∧
      TellsComments [statement] [cast 0 (-1) 2] counts ∧
      ColumnsCounted [cast 0 (-1) 2] [0] participants counts ∧
      TellsGroups [0] (sendCommentGroupsSummary groupVotes [statement] none) := by
  have hrecorded : Recorded [statement] [cast 0 (-1) 2] :=
    ⟨by decide, by decide, by simpa using ⟨Vote.agree, rfl⟩, by simpa using ⟨2, rfl⟩⟩
  have hcoherent : ∀ data ∈ some groups, Coherent data := by
    rintro data ⟨⟩
    exact ⟨⟨by decide, by decide, pairwise_singleton _ _, by decide, by decide⟩, by decide⟩
  exact exports_tell hrecorded ⟨.refl _, pairwise_singleton _ _⟩ ⟨.refl _, pairwise_singleton _ _⟩
    ⟨.refl _, pairwise_singleton _ _⟩ hcoherent (show groupVotes.groupIds.Nodup by decide) none

/-- A participant agrees and then disagrees. Both votes are counted in `comments.csv`, while the one cell is
-1; it is 1 if the two rows, which the query does not order, come the other way. A vote on a tid without a
statement is one more vote without a cell. -/
theorem repeated_vote_tells_two_stories :
    let ctx := loadParticipantExportContext [statement] (some groups)
    let votes := [cast 0 (-1) 2, cast 0 1 3]
    (sendCommentSummary [statement] votes).map (fun row => (row.agrees, row.disagrees)) = [(1, 1)] ∧
      (sendParticipantVotesSummary ctx votes).map (·.cells) = [[some (-1)]] ∧
      OrderedBy pidTid votes votes.reverse ∧
      (sendParticipantVotesSummary ctx votes.reverse).map (·.cells) = [[some 1]] ∧
      (sendParticipantVotesSummary ctx [cast 0 (-1) 2, cast 7 (-1) 3]).map (fun row => (row.nVotes, row.cells)) =
        [(2, [some 1])] := by
  refine ⟨by decide, by decide, ⟨reverse_perm _, by decide⟩, by decide, by decide⟩

end Polis.ReportExport
