import Polis.Common.ControlBreak
import Polis.Conversation.MathBundle
import Mathlib.Algebra.Order.Ring.Unbundled.Rat

/-!
# The report exports of the server

Four exporters read the votes of a conversation. `comments.csv` counts them for each statement,
`participant-votes.csv` and `participant-importance.csv` gather those of one participant at a time from a
stream in the order of the participants, and `comment-groups.csv` is made of the votes by group in the math
bundle.

Reference: `server/src/report.ts`, `server/src/votes/convention.ts`.
-/

namespace Polis.ReportExport

/-! ## The sign of a vote -/

inductive Vote
  | agree
  | disagree
  | pass
deriving DecidableEq, Repr

/-- `votes.vote`; the column has no check and may be NULL. -/
abbrev RawVote := Option ℤ

def STORAGE_AGREE_VALUE : ℤ := -1

def EXPORT_AGREE_VALUE : ℤ := 1

def EXPORT_NULL_VALUE : ℤ := 0

/-- `toSemantic`, with `onInvalid: "skip"` -/
def toSemantic (raw : RawVote) (agree : ℤ) : Option Vote :=
  match raw with
  | none => none
  | some value =>
    if value = agree then some .agree
    else if value = -agree then some .disagree
    else if value = 0 then some .pass
    else none

def fromSemantic (vote : Vote) (agree : ℤ) : ℤ :=
  match vote with
  | .agree => agree
  | .disagree => -agree
  | .pass => 0

/-- `storageToSemantic`, with `onInvalid: "skip"` -/
def storageToSemantic (raw : RawVote) : Option Vote := toSemantic raw STORAGE_AGREE_VALUE

/-- `storageToExport`, with `onInvalid: "keep"` -/
def storageToExport (raw : RawVote) : ℤ :=
  match raw with
  | none => EXPORT_NULL_VALUE
  | some value =>
    match toSemantic raw STORAGE_AGREE_VALUE with
    | none => value * STORAGE_AGREE_VALUE * EXPORT_AGREE_VALUE
    | some vote => fromSemantic vote EXPORT_AGREE_VALUE

/-! ## Rows -/

abbrev Text := List Char

/-- A row of `comments`. The pairs of a conversation and a tid are unique. -/
structure CommentRow where
  tid : ℤ
  pid : ℤ
  created : Option ℤ
  txt : Text
  mod : ℤ
  velocity : ℚ
deriving DecidableEq

/-- A row of `votes`. A participant may have several on one statement. -/
structure VoteRow where
  pid : ℤ
  tid : ℤ
  vote : RawVote
  created : Option ℤ
  high_priority : Option Bool
deriving DecidableEq

/-! ## The format -/

/-- `String(n)` -/
def num (n : ℤ) : Text := (toString n).toList

def formatEscapedText (s : Text) : Text :=
  '"' :: s.flatMap (fun c => if c = '"' then ['"', '"'] else [c]) ++ ['"']

def sep : Text := ['\n']

/-- `values.join(",")` -/
def joined (values : List Text) : Text := [','].intercalate values

/-- The columns of a file: the header and the cell of a row. -/
abbrev Formatters (ρ : Type*) := List (Text × (ρ → Text))

section Format

variable {ρ : Type*}

def formatCSVHeaders (colFns : Formatters ρ) : Text := joined (colFns.map Prod.fst)

def formatCSVRow (row : ρ) (colFns : Formatters ρ) : Text := joined (colFns.map fun col => col.2 row)

def formatCSV (colFns : Formatters ρ) (rows : List ρ) : Text :=
  formatCSVHeaders colFns ++ sep ++ rows.flatMap fun row => formatCSVRow row colFns ++ sep

end Format

/-- `String(Math.floor(parseInt(created) / 1000))` -/
def parsedSeconds : Option ℤ → Text
  | none => "NaN".toList
  | some ms => num (ms / 1000)

/-- `String(Math.floor(row.timestamp / 1000))`, where a null is a zero. -/
def floorSeconds (timestamp : Option ℤ) : Text := num (timestamp.getD 0 / 1000)

/-! ## comments.csv -/

/-- A comment with the counts that are written into it. -/
structure CommentStats where
  comment : CommentRow
  agrees : ℕ
  disagrees : ℕ
  pass : ℕ
  importance : ℕ
deriving DecidableEq

def CommentStats.fresh (comment : CommentRow) : CommentStats :=
  { comment, agrees := 0, disagrees := 0, pass := 0, importance := 0 }

/-- The row of a vote, for the comment that it is on. -/
def CommentStats.count (comment : CommentStats) (row : VoteRow) : CommentStats :=
  let comment := match storageToSemantic row.vote with
    | some .agree => { comment with agrees := comment.agrees + 1 }
    | some .disagree => { comment with disagrees := comment.disagrees + 1 }
    | some .pass => { comment with pass := comment.pass + 1 }
    | none => comment
  if row.high_priority = some true then { comment with importance := comment.importance + 1 } else comment

/-- `comments`: the comment of a tid, by its position among the rows. -/
def commentsByTid (commentRows : List CommentRow) : OrderedMap ℤ ℕ :=
  .ofWrites (fun e => e.1.tid) (fun e => e.2) commentRows.zipIdx

def countVote (comments : OrderedMap ℤ ℕ) (rows : List CommentStats) (row : VoteRow) : List CommentStats :=
  match comments.get row.tid with
  | some i => rows.modify i (·.count row)
  | none => rows

/-- The rows of `sendCommentSummary`, the greatest velocity first. -/
def sendCommentSummary (commentRows : List CommentRow) (votes : List VoteRow) : List CommentStats :=
  (votes.foldl (countVote (commentsByTid commentRows)) (commentRows.map .fresh)).insertionSort
    fun a b => b.comment.velocity ≤ a.comment.velocity

/-- The columns; a date is written in the time zone of the process. -/
def commentFormatters (formatDatetime : Option ℤ → Text) : Formatters CommentStats :=
  [("timestamp".toList, fun row => parsedSeconds row.comment.created),
    ("datetime".toList, fun row => formatDatetime row.comment.created),
    ("comment-id".toList, fun row => num row.comment.tid),
    ("author-id".toList, fun row => num row.comment.pid),
    ("agrees".toList, fun row => num row.agrees),
    ("disagrees".toList, fun row => num row.disagrees),
    ("moderated".toList, fun row => num row.comment.mod),
    ("importance".toList, fun row => num row.importance),
    ("comment-body".toList, fun row => formatEscapedText row.comment.txt)]

def commentsCsv (formatDatetime : Option ℤ → Text) (commentRows : List CommentRow) (votes : List VoteRow) :
    Text :=
  formatCSV (commentFormatters formatDatetime) (sendCommentSummary commentRows votes)

/-! ## votes.csv -/

def voteFormatters (formatDatetime : Option ℤ → Text) : Formatters VoteRow :=
  [("timestamp".toList, fun row => floorSeconds row.created),
    ("datetime".toList, fun row => formatDatetime row.created),
    ("comment-id".toList, fun row => num row.tid),
    ("voter-id".toList, fun row => num row.pid),
    ("vote".toList, fun row => num (storageToExport row.vote)),
    ("important".toList, fun row => num (if row.high_priority = some true then 1 else 0))]

/-- What `sendVotesSummary` writes. -/
def sendVotesSummary (formatDatetime : Option ℤ → Text) (votes : List VoteRow) : List Text :=
  (formatCSVHeaders (voteFormatters formatDatetime) ++ sep) ::
    votes.map fun row => formatCSVRow row (voteFormatters formatDatetime) ++ sep

/-! ## The groups of the participants -/

/-- `base-clusters` -/
structure BaseClusters where
  id : List ℤ
  members : List (List ℤ)
deriving DecidableEq, Repr

/-- What the exports of participants read of the bundle. What is not an array is absent. -/
structure PcaData where
  inConv : Option (List ℤ)
  baseClusters : Option BaseClusters
  groupClusters : Option (List GroupCluster)
deriving DecidableEq, Repr

/-- What the resolver returns for a participant of the conversation. -/
def groupIdOf (baseClusters : BaseClusters) (groupClusters : List GroupCluster) (pid : ℤ) : Option ℤ :=
  match baseClusters.members.findIdx? (pid ∈ ·) with
  | none => none
  | some baseClusterIndex =>
    match baseClusters.id[baseClusterIndex]? with
    | none => none
    | some baseClusterId => (groupClusters.find? (baseClusterId ∈ ·.members)).map (·.id)

def createGroupIdResolver (pcaData : Option PcaData) : ℤ → Option ℤ :=
  match pcaData with
  | none => fun _ => none
  | some data =>
    match data.baseClusters with
    | none => fun _ => none
    | some baseClusters =>
      let groupClusters := data.groupClusters.getD []
      if groupClusters.length = 0 then fun _ => none
      else fun pid => if pid ∈ data.inConv.getD [] then groupIdOf baseClusters groupClusters pid else none

structure ParticipantExportContext where
  commentIds : List ℤ
  participantCommentCounts : OrderedMap ℤ ℕ
  getGroupId : ℤ → Option ℤ

/-- The comments are read in the order of their tids. -/
def loadParticipantExportContext (commentRows : List CommentRow) (pcaData : Option PcaData) :
    ParticipantExportContext where
  commentIds := commentRows.map (·.tid)
  participantCommentCounts := commentRows.foldl
    (fun counts row => counts.set row.pid ((counts.get row.pid).getD 0 + 1)) .empty
  getGroupId := createGroupIdResolver pcaData

/-! ## A row for each participant -/

/-- The pass over the votes: the participant whose votes are gathered, -1 at the start, and the rows sent. -/
structure Pass (β ρ : Type*) where
  currentParticipantId : ℤ
  gathered : β
  sent : List ρ

section Pass

variable {β ρ : Type*} (cleared : β) (gather : β → VoteRow → β) (participantRow : ℤ → β → ρ)

/-- `sendCurrentParticipantRow`, unless no participant has been met. -/
def Pass.sendCurrent (s : Pass β ρ) : Pass β ρ :=
  if s.currentParticipantId ≠ -1 then
    { s with sent := s.sent ++ [participantRow s.currentParticipantId s.gathered] }
  else s

def Pass.onRow (s : Pass β ρ) (row : VoteRow) : Pass β ρ :=
  let s :=
    if row.pid ≠ s.currentParticipantId then
      { s.sendCurrent participantRow with currentParticipantId := row.pid, gathered := cleared }
    else s
  { s with gathered := gather s.gathered row }

/-- The rows that are sent for a stream of votes. -/
def participantRows (votes : List VoteRow) : List ρ :=
  ((votes.foldl (Pass.onRow cleared gather participantRow) ⟨-1, cleared, []⟩).sendCurrent participantRow).sent

end Pass

/-- A row of `participant-votes.csv`; a statement that the participant did not vote on has no value. -/
structure ParticipantVotesRow where
  participant : ℤ
  groupId : Option ℤ
  nComments : ℕ
  nVotes : ℕ
  nAgree : ℕ
  nDisagree : ℕ
  cells : List (Option ℤ)
deriving DecidableEq, Repr

/-- `value === undefined ? "" : String(value)` -/
def shown (value : Option ℤ) : Text := value.elim [] num

def ParticipantVotesRow.text (row : ParticipantVotesRow) : Text :=
  joined (([some row.participant, row.groupId, some row.nComments, some row.nVotes, some row.nAgree,
    some row.nDisagree] ++ row.cells).map shown) ++ sep

def votesRow (ctx : ParticipantExportContext) (currentParticipantId : ℤ)
    (currentParticipantVotes : OrderedMap ℤ RawVote) : ParticipantVotesRow where
  participant := currentParticipantId
  groupId := ctx.getGroupId currentParticipantId
  nComments := (ctx.participantCommentCounts.get currentParticipantId).getD 0
  nVotes := currentParticipantVotes.size
  nAgree := currentParticipantVotes.values.countP fun raw => storageToSemantic raw = some .agree
  nDisagree := currentParticipantVotes.values.countP fun raw => storageToSemantic raw = some .disagree
  cells := ctx.commentIds.map fun tid => (currentParticipantVotes.get tid).map storageToExport

def sendParticipantVotesSummary (ctx : ParticipantExportContext) (votes : List VoteRow) :
    List ParticipantVotesRow :=
  participantRows .empty (fun currentParticipantVotes row => currentParticipantVotes.set row.tid row.vote)
    (votesRow ctx) votes

def participantVotesHeader (commentIds : List ℤ) : Text :=
  joined (["participant", "group-id", "n-comments", "n-votes", "n-agree", "n-disagree"].map String.toList ++
    commentIds.map num) ++ sep

/-- What is written of `participant-votes.csv`. -/
def participantVotesCsv (ctx : ParticipantExportContext) (votes : List VoteRow) : List Text :=
  participantVotesHeader ctx.commentIds :: (sendParticipantVotesSummary ctx votes).map (·.text)

/-- A row of `participant-importance.csv` -/
structure ParticipantImportanceRow where
  participant : ℤ
  groupId : Option ℤ
  nComments : ℕ
  nVotes : ℕ
  nImportant : ℕ
  cells : List (Option ℤ)
deriving DecidableEq, Repr

def ParticipantImportanceRow.text (row : ParticipantImportanceRow) : Text :=
  joined (([some row.participant, row.groupId, some row.nComments, some row.nVotes,
    some row.nImportant] ++ row.cells).map shown) ++ sep

/-- The keys of the map are at all times the statements in `currentParticipantVotedComments`. -/
def importanceRow (ctx : ParticipantExportContext) (currentParticipantId : ℤ)
    (currentParticipantImportance : OrderedMap ℤ Bool) : ParticipantImportanceRow where
  participant := currentParticipantId
  groupId := ctx.getGroupId currentParticipantId
  nComments := (ctx.participantCommentCounts.get currentParticipantId).getD 0
  nVotes := currentParticipantImportance.size
  nImportant := currentParticipantImportance.values.countP id
  cells := ctx.commentIds.map fun tid =>
    (currentParticipantImportance.get tid).map fun important => if important then 1 else 0

def sendParticipantImportance (ctx : ParticipantExportContext) (votes : List VoteRow) :
    List ParticipantImportanceRow :=
  participantRows .empty
    (fun currentParticipantImportance row =>
      if row.tid ∈ ctx.commentIds then
        currentParticipantImportance.set row.tid (row.high_priority.getD false)
      else currentParticipantImportance)
    (importanceRow ctx) votes

def participantImportanceHeader (commentIds : List ℤ) : Text :=
  joined (["participant", "group-id", "n-comments", "n-votes", "n-important"].map String.toList ++
    commentIds.map num) ++ sep

/-- What is written of `participant-importance.csv`. -/
def participantImportanceCsv (ctx : ParticipantExportContext) (votes : List VoteRow) : List Text :=
  participantImportanceHeader ctx.commentIds :: (sendParticipantImportance ctx votes).map (·.text)

/-! ## comment-groups.csv -/

/-- The votes of a group on a statement: agreements, disagreements and all. -/
structure GroupVotes where
  A : ℤ
  D : ℤ
  S : ℤ
deriving DecidableEq, Repr

structure GroupStats where
  votes : ℤ
  agrees : ℤ
  disagrees : ℤ
  passes : ℤ
deriving DecidableEq, Repr

structure CommentGroupStats where
  tid : ℤ
  txt : Text
  total_votes : ℤ
  total_agrees : ℤ
  total_disagrees : ℤ
  total_passes : ℤ
  group_stats : OrderedMap ℤ GroupStats

/-- What the export reads of the bundle as it is presented, over the numbers `φ` of its floats. -/
structure GroupData (φ : Type*) where
  /-- `group-clusters`, by id -/
  groupIds : List ℤ
  /-- `group-votes`: for each group its votes by tid, in the order of `Object.entries` -/
  groupVotes : OrderedMap ℤ (OrderedMap ℤ GroupVotes)
  groupAwareConsensus : OrderedMap ℤ φ
  commentExtremity : List φ
  tids : List ℤ

/-- What `filterFN` is called with. -/
structure FilterInput (φ : Type*) where
  votes : ℤ
  agrees : ℤ
  disagrees : ℤ
  passes : ℤ
  group_aware_consensus : Option φ
  comment_extremity : Option φ
  comment_id : ℤ
  num_groups : ℕ

/-- The stats of a statement that has not been seen before. -/
def CommentGroupStats.fresh (groupIds : List ℤ) (commentTexts : OrderedMap ℤ Text) (tid : ℤ) :
    CommentGroupStats where
  tid := tid
  txt := (commentTexts.get tid).getD []
  total_votes := 0
  total_agrees := 0
  total_disagrees := 0
  total_passes := 0
  group_stats := .ofWrites id (fun _ => ⟨0, 0, 0, 0⟩) groupIds

/-- The passes are what the agreements and the disagreements leave of all votes. -/
def GroupVotes.stats (votes : GroupVotes) : GroupStats :=
  { agrees := votes.A, disagrees := votes.D, votes := votes.S, passes := votes.S - (votes.A + votes.D) }

/-- The votes of one group on one statement. -/
def recordVotes (groupIds : List ℤ) (commentTexts : OrderedMap ℤ Text) (groupId : ℤ)
    (commentStats : OrderedMap ℤ CommentGroupStats) (entry : ℤ × GroupVotes) :
    OrderedMap ℤ CommentGroupStats :=
  let stats := (commentStats.get entry.1).getD (.fresh groupIds commentTexts entry.1)
  commentStats.set entry.1 { stats with group_stats := stats.group_stats.set groupId entry.2.stats }

/-- The votes of one group; a group without any is passed over. -/
def recordGroup (groupIds : List ℤ) (commentTexts : OrderedMap ℤ Text)
    (groupVotes : OrderedMap ℤ (OrderedMap ℤ GroupVotes)) (commentStats : OrderedMap ℤ CommentGroupStats)
    (groupId : ℤ) : OrderedMap ℤ CommentGroupStats :=
  match groupVotes.get groupId with
  | none => commentStats
  | some votes => votes.entries.foldl (recordVotes groupIds commentTexts groupId) commentStats

def CommentGroupStats.withTotals (stats : CommentGroupStats) : CommentGroupStats :=
  let groups := stats.group_stats.values
  { stats with
    total_agrees := (groups.map (·.agrees)).sum
    total_disagrees := (groups.map (·.disagrees)).sum
    total_passes := (groups.map (·.passes)).sum
    total_votes := (groups.map (·.votes)).sum }

section CommentGroups

variable {φ : Type*} (data : GroupData φ) (commentRows : List CommentRow)

def commentTexts : OrderedMap ℤ Text := .ofWrites (·.tid) (·.txt) commentRows

/-- The stats of the statements, in the order in which the groups bring them up. -/
def commentGroupStats : List CommentGroupStats :=
  let texts := commentTexts commentRows
  (data.groupIds.foldl (recordGroup data.groupIds texts data.groupVotes) .empty).values.map (·.withTotals)

/-- `tidToExtremityIndex` -/
def tidToExtremityIndex : OrderedMap ℤ ℕ :=
  .ofWrites (fun e => e.1) (fun e => e.2) (data.tids.take data.commentExtremity.length).zipIdx

def filterInput (stats : CommentGroupStats) : FilterInput φ where
  votes := stats.total_votes
  agrees := stats.total_agrees
  disagrees := stats.total_disagrees
  passes := stats.total_passes
  group_aware_consensus := data.groupAwareConsensus.get stats.tid
  comment_extremity := ((tidToExtremityIndex data).get stats.tid).bind (data.commentExtremity[·]?)
  comment_id := stats.tid
  num_groups := data.groupIds.length

/-- The rows that are included. -/
def sendCommentGroupsSummary (filterFN : Option (FilterInput φ → Bool)) : List CommentGroupStats :=
  (commentGroupStats data commentRows).filter fun stats =>
    filterFN.elim true fun keep => keep (filterInput data stats)

/-- The columns of a group; every group has an entry. -/
def CommentGroupStats.group (stats : CommentGroupStats) (groupId : ℤ) : GroupStats :=
  (stats.group_stats.get groupId).getD ⟨0, 0, 0, 0⟩

def groupHeaders (groupId : ℤ) : List Text :=
  let groupLetter := Char.ofNat (97 + groupId).toNat
  ["votes", "agrees", "disagrees", "passes"].map fun name =>
    "group-".toList ++ groupLetter :: '-' :: name.toList

def CommentGroupStats.text (groupIds : List ℤ) (stats : CommentGroupStats) : Text :=
  joined ([num stats.tid, formatEscapedText stats.txt, num stats.total_votes, num stats.total_agrees,
    num stats.total_disagrees, num stats.total_passes] ++ groupIds.flatMap fun groupId =>
      let groupStats := stats.group groupId
      [num groupStats.votes, num groupStats.agrees, num groupStats.disagrees, num groupStats.passes]) ++ sep

/-- What is written of `comment-groups.csv`. -/
def commentGroupsCsv (filterFN : Option (FilterInput φ → Bool)) : List Text :=
  (joined (["comment-id", "comment", "total-votes", "total-agrees", "total-disagrees",
    "total-passes"].map String.toList ++ data.groupIds.flatMap groupHeaders) ++ sep) ::
  (sendCommentGroupsSummary data commentRows filterFN).map (·.text data.groupIds)

end CommentGroups

end Polis.ReportExport
