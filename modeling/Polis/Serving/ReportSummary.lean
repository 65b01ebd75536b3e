import Polis.Common.Calendar
import Polis.Common.Json
import Polis.Serving.ReportExport

/-!
# The exports of a conversation without math

The summary, the declaration of the format and the date of a row, and with them everything that the server
exports of a conversation that has no stored math. Such a conversation is presented as one with no votes; the
count of its statements is kept for as long as the presentation is.

Reference: `server/src/report.ts`, `server/src/routes/export.ts`, `server/src/votes/exportFormat.ts`,
`server/src/utils/pca.ts`, `server/src/utils/pcaPresentation.ts`.
-/

namespace Polis.ReportExport

/-! ## Dates -/

/-- A number with zeros before it up to a width. -/
def padded (width n : ℕ) : Text :=
  List.replicate (width - (Nat.toDigits 10 n).length) '0' ++ Nat.toDigits 10 n

def dayNames : List Text := ["Sun", "Mon", "Tue", "Wed", "Thu", "Fri", "Sat"].map String.toList

def monthNames : List Text :=
  ["Jan", "Feb", "Mar", "Apr", "May", "Jun", "Jul", "Aug", "Sep", "Oct", "Nov", "Dec"].map String.toList

/-- `Date.prototype.toString` of a time value, in UTC. -/
def dateToString (ms : ℤ) : Text :=
  let day := ms / 86400000
  let seconds := (ms % 86400000 / 1000).toNat
  let date := Calendar.civil day
  dayNames.getD ((day + 4) % 7).toNat [] ++ ' ' :: monthNames.getD (date.month - 1) [] ++
    ' ' :: padded 2 date.day ++ ' ' :: (if date.year < 0 then ['-'] else []) ++ padded 4 date.year.natAbs ++
    ' ' :: padded 2 (seconds / 3600) ++ ':' :: padded 2 (seconds / 60 % 60) ++ ':' :: padded 2 (seconds % 60) ++
    " GMT".toList ++ "+0000".toList ++ " (Coordinated Universal Time)".toList

/-- `new Date(parseInt(timestamp)).toString()` -/
def formatDatetime : Option ℤ → Text
  | none => "Invalid Date".toList
  | some ms => if ms.natAbs ≤ 8640000000000000 then dateToString ms else "Invalid Date".toList

/-! ## format.json -/

/-- `JSON.stringify(value, null, 2)`, at a depth of the indentation. -/
def indented (depth : ℕ) : Text := '\n' :: List.replicate (2 * depth) ' '

mutual

def stringify (depth : ℕ) : Json ℤ → Text
  | .null => "null".toList
  | .bool b => (if b then "true" else "false").toList
  | .number n => num n
  | .string s => Json.quote s
  | .array [] => "[]".toList
  | .array (v :: items) => '[' :: stringifyItems depth (v :: items) ++ indented depth ++ [']']
  | .object [] => ['\x7b', '\x7d']
  | .object (m :: members) => '\x7b' :: stringifyMembers depth (m :: members) ++ indented depth ++ ['\x7d']

def stringifyItems (depth : ℕ) : List (Json ℤ) → Text
  | [] => []
  | v :: items =>
    indented (depth + 1) ++ stringify (depth + 1) v ++ (if items.isEmpty then [] else [',']) ++
      stringifyItems depth items

def stringifyMembers (depth : ℕ) : List (String × Json ℤ) → Text
  | [] => []
  | (k, v) :: members =>
    indented (depth + 1) ++ Json.quote k ++ ':' :: ' ' :: stringify (depth + 1) v ++
      (if members.isEmpty then [] else [',']) ++ stringifyMembers depth members

end

def EXPORT_FORMAT_ID : String := "polis-export/1"

def VOTE_CONVENTION_KEY : String := "vote-convention"

def signedText (n : ℤ) : String := if 0 < n then "+" ++ toString n else toString n

/-- The agreement, the disagreement and the pass of the export. -/
def EXPORT_VOTE_VALUES : List (String × ℤ) :=
  [("agree", EXPORT_AGREE_VALUE), ("disagree", -EXPORT_AGREE_VALUE), ("pass", 0)]

def EXPORT_VOTE_CONVENTION : String :=
  ";".intercalate (EXPORT_VOTE_VALUES.map (fun e => e.1 ++ "=" ++ signedText e.2) ++
    ["format=" ++ EXPORT_FORMAT_ID])

/-- The report export files and the kinds of their columns. -/
def EXPORT_FILES : List (String × List (String × String)) :=
  [("summary.csv", [(VOTE_CONVENTION_KEY, "declaration")]),
    ("votes.csv", [("vote", "vote"), ("important", "flag")]),
    ("participant-votes.csv",
      [("<comment-id>", "vote"), ("n-votes", "count"), ("n-agree", "count"), ("n-disagree", "count")]),
    ("participant-importance.csv",
      [("<comment-id>", "flag"), ("n-votes", "count"), ("n-important", "count")]),
    ("comments.csv", [("agrees", "count"), ("disagrees", "count"), ("importance", "count")]),
    ("comment-groups.csv",
      [("total-votes", "count"), ("total-agrees", "count"), ("total-disagrees", "count"),
        ("total-passes", "count"), ("group-<letter>-votes", "count"), ("group-<letter>-agrees", "count"),
        ("group-<letter>-disagrees", "count"), ("group-<letter>-passes", "count")]),
    ("comment-clusters.csv", [])]

def EXPORT_FORMAT_DOCS_URL : String :=
  "https://github.com/compdemocracy/polis/blob/edge/docs/export-format.md"

def exportFormatDocument : Json ℤ :=
  .object [("format", .string EXPORT_FORMAT_ID), (VOTE_CONVENTION_KEY, .string EXPORT_VOTE_CONVENTION),
    ("vote", .object (EXPORT_VOTE_VALUES.map fun e => (e.1, .number e.2))),
    ("files", .object (EXPORT_FILES.map fun e => (e.1, .object (e.2.map fun c => (c.1, .string c.2))))),
    ("docs", .string EXPORT_FORMAT_DOCS_URL)]

def exportFormatJson : Text := stringify 0 exportFormatDocument ++ sep

/-! ## summary.csv -/

/-- A row of `conversations`. -/
structure Conversation where
  topic : Text
  description : Text
deriving DecidableEq

/-- What the summary reads of the presented data: the sizes of its parts. -/
structure Presented where
  userVoteCounts : ℕ
  inConv : ℕ
  nCmts : ℕ
  groupClusters : ℕ

/-- The rows of the summary. -/
def loadConversationSummary (siteUrl zinvite : Text) (convo : Conversation) (commenters : ℕ) (data : Presented) :
    List Text :=
  [["topic".toList, formatEscapedText convo.topic], ["url".toList, siteUrl ++ '/' :: zinvite],
    ["voters".toList, num data.userVoteCounts], ["voters-in-conv".toList, num data.inConv],
    ["commenters".toList, num commenters], ["comments".toList, num data.nCmts],
    ["groups".toList, num data.groupClusters],
    ["conversation-description".toList, formatEscapedText convo.description],
    [VOTE_CONVENTION_KEY.toList, EXPORT_VOTE_CONVENTION.toList]].map joined

def sendConversationSummary (siteUrl zinvite : Text) (convo : Conversation) (commenters : ℕ) (data : Presented) :
    Text :=
  sep.intercalate (loadConversationSummary siteUrl zinvite convo commenters data)

/-! ## A conversation without math -/

/-- An object in the cache of the math, known by its identity. -/
structure PcaItem where
  identity : ℕ
  expiration : ℚ
deriving DecidableEq

/-- What was presented of an object, with its `n-cmts`. -/
structure Presentation where
  source : ℕ
  nCmts : ℕ
  expiration : ℚ
deriving DecidableEq

/-- What the two caches hold for the conversation; new objects get new identities. -/
structure NodeCache where
  pca : Option PcaItem
  presentation : Option Presentation
  next : ℕ
deriving DecidableEq

def PRESENTATION_TTL_MS : ℚ := 3000

/-- The empty structure of the conversation, from the cache for as long as it has not expired. -/
def getPcaFromBundle (now : ℚ) (cache : NodeCache) : PcaItem × NodeCache :=
  match cache.pca.filter fun item => now < item.expiration with
  | some item => (item, cache)
  | none =>
    let item := ⟨cache.next, now + 3000⟩
    (item, { cache with pca := some item, next := cache.next + 1 })

/-- `presentPca`: the approved statements are counted again once the object or the time is another. -/
def presentPca (now : ℚ) (approved : ℕ) (item : PcaItem) (cache : NodeCache) : ℕ × NodeCache :=
  match cache.presentation.filter fun p => p.source = item.identity ∧ now < p.expiration with
  | some p => (p.nCmts, cache)
  | none =>
    (approved, { cache with presentation := some ⟨item.identity, approved, now + PRESENTATION_TTL_MS⟩ })

/-- The exports that both servers have. -/
inductive Kind
  | Format
  | Summary
  | Comments
  | Votes
  | ParticipantVotes
  | ParticipantImportance
  | CommentGroups
deriving DecidableEq, Repr

/-- What is read for an export: the comments as the table has them and by tid, and the votes in the order of
the query. -/
structure Tables where
  comments : List CommentRow
  byTid : List CommentRow
  votes : List VoteRow
  conversation : Conversation
  zinvite : Text

/-- `select count(tid) .. mod >= 1` -/
def Tables.approved (t : Tables) : ℕ := t.comments.countP fun row => 1 ≤ row.mod

/-- `COUNT(DISTINCT pid)` -/
def Tables.commenters (t : Tables) : ℕ := (t.comments.map (·.pid)).dedup.length

/-- `createEmptyPcaStructure`, as the groups of the participants are read of it. -/
def emptyPca : PcaData := ⟨some [], some ⟨[], []⟩, some []⟩

def emptyGroups : GroupData ℚ := ⟨[], .empty, .empty, [], []⟩

/-- The body that the server sends of a conversation without math. -/
def sendExport (kind : Kind) (t : Tables) (siteUrl : Text) (now : ℚ) (cache : NodeCache) : Text × NodeCache :=
  match kind with
  | .Format => (exportFormatJson, cache)
  | .Summary =>
    let (item, cache) := getPcaFromBundle now cache
    let (nCmts, cache) := presentPca now t.approved item cache
    (sendConversationSummary siteUrl t.zinvite t.conversation t.commenters ⟨0, 0, nCmts, 0⟩, cache)
  | .Comments => (commentsCsv formatDatetime t.comments t.votes, cache)
  | .Votes => ((sendVotesSummary formatDatetime t.votes).flatten, cache)
  | .ParticipantVotes =>
    let (_, cache) := getPcaFromBundle now cache
    ((participantVotesCsv (loadParticipantExportContext t.byTid (some emptyPca)) t.votes).flatten, cache)
  | .ParticipantImportance =>
    let (_, cache) := getPcaFromBundle now cache
    ((participantImportanceCsv (loadParticipantExportContext t.byTid (some emptyPca)) t.votes).flatten, cache)
  | .CommentGroups =>
    let (item, cache) := getPcaFromBundle now cache
    let (_, cache) := presentPca now t.approved item cache
    ((commentGroupsCsv emptyGroups t.comments none).flatten, cache)

end Polis.ReportExport
