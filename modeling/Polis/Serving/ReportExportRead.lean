import Polis.Common.Utf8
import Polis.Serving.ReportSummary

/-!
# The report exports of the service

`read_cached` answers an export from bounded reads, in the bytes of the server, or leaves it to the server: a
conversation with stored math, more rows or text than it takes, a date outside of the years that are written
with four digits, a vote that is repeated.

Reference: `queue-rs/polis-api/src/report_export.rs`, `queue-rs/polis-contracts/src/report_export.rs`,
`queue-rs/polis-contracts/src/votes.rs`, `queue-rs/polis-api/src/http.rs`.
-/

namespace Polis.ReportExport.Service

/-! ## The sign of a vote -/

/-- `VoteChoice` -/
inductive VoteChoice
  | Agree
  | Disagree
  | Pass
deriving DecidableEq, Repr

structure StorageConvention where
  agree : ℤ

namespace StorageConvention

def CURRENT : StorageConvention := ⟨-1⟩

def decode (convention : StorageConvention) (raw : Option ℤ) : Option VoteChoice :=
  match raw with
  | none => none
  | some n =>
    if n = convention.agree then some .Agree
    else if n = -convention.agree then some .Disagree
    else if n = 0 then some .Pass
    else none

def export_preserving_invalid (convention : StorageConvention) (raw : Option ℤ) : ℤ :=
  match raw with
  | none => 0
  | some value => value * convention.agree * 1

end StorageConvention

/-! ## Dates -/

def DAYS : List Text := ["Thu", "Fri", "Sat", "Sun", "Mon", "Tue", "Wed"].map String.toList

def MONTHS : List Text :=
  ["Jan", "Feb", "Mar", "Apr", "May", "Jun", "Jul", "Aug", "Sep", "Oct", "Nov", "Dec"].map String.toList

def http_date (unix_seconds : ℕ) : Text :=
  let days := unix_seconds / 86400
  let secs := unix_seconds % 86400
  let date := Calendar.civilFromDays days
  DAYS.getD (days % 7) [] ++ ',' :: ' ' :: padded 2 date.day ++ ' ' :: MONTHS.getD (date.month - 1) [] ++
    ' ' :: num date.year ++ ' ' :: padded 2 (secs / 3600) ++ ':' :: padded 2 (secs % 3600 / 60) ++
    ':' :: padded 2 (secs % 60) ++ " GMT".toList

/-- `split_whitespace`, after the characters of the open word. -/
def splitWhitespace : Text → Text → List Text
  | word, [] => if word = [] then [] else [word]
  | word, c :: s =>
    if c.isWhitespace then
      if word = [] then splitWhitespace [] s else word :: splitWhitespace [] s
    else splitWhitespace (word ++ [c]) s

/-- The seconds and the date of a row; without a time it has neither. -/
def date (created : Option ℤ) : Option (Text × Text) :=
  match created with
  | none => some ("NaN".toList, "Invalid Date".toList)
  | some ms =>
    if 0 ≤ ms ∧ ms ≤ 253402300799999 then
      let seconds := ms / 1000
      match splitWhitespace [] (http_date seconds.toNat) with
      | [weekday, day, month, year, time, _] =>
        some (num seconds, weekday.rdropWhile (· = ',') ++ ' ' :: month ++ ' ' :: day ++ ' ' :: year ++
          ' ' :: time ++ " GMT+0000 (Coordinated Universal Time)".toList)
      | _ => none
    else none

/-! ## Bounded reads -/

/-- No rows once there is one more than a thousand. -/
def bounded {ρ : Type*} (rows : List ρ) : Option (List ρ) := if rows.length ≤ 1000 then some rows else none

/-- The rows of `comments`, whose texts have been counted up to some bytes. The velocities of the rows are
finite. -/
def commentsFrom : ℕ → List CommentRow → Option (List CommentRow)
  | _, [] => some []
  | bytes, row :: rows =>
    let bytes := bytes + Utf8.bytes row.txt
    if 262144 < bytes then none else (commentsFrom bytes rows).map (row :: ·)

def comments (rows : List CommentRow) : Option (List CommentRow) := (bounded rows).bind (commentsFrom 0)

structure Vote where
  tid : ℤ
  pid : ℤ
  created : Option ℤ
  value : Option ℤ
  important : Bool
deriving DecidableEq

/-- The columns of a vote that the query of an export selects. -/
def readVote (kind : Kind) (row : VoteRow) : Vote :=
  match kind with
  | .Comments => ⟨row.tid, 0, none, row.vote, row.high_priority.getD false⟩
  | .ParticipantVotes => ⟨row.tid, row.pid, none, row.vote, false⟩
  | .ParticipantImportance => ⟨row.tid, row.pid, none, row.vote, row.high_priority.getD false⟩
  | _ => ⟨row.tid, row.pid, row.created, row.vote, row.high_priority.getD false⟩

def votes (kind : Kind) (rows : List VoteRow) : Option (List Vote) :=
  (bounded rows).bind fun rows => rows.mapM fun row =>
    if (readVote kind row).pid < 0 then none else some (readVote kind row)

/-! ## The count that is kept -/

/-- When an entry expires, and the approved statements if an export has counted them. -/
abbrev Entry := ℚ × Option ℕ

/-- `Cache::presentation`, with the entry of the conversation before and after. -/
def presentation (entry : Option Entry) (now : ℚ) (approved : Option ℕ) : Option ℕ × Entry :=
  let entry := (entry.filter fun e => now < e.1).getD (now + 3000, none)
  let entry := if entry.2 = none then (entry.1, approved) else entry
  (entry.2, entry)

/-! ## Answers -/

inductive Response
  | Json (body : Text)
  | Csv (body : Text)
  | Stream (chunks : List Text)
deriving DecidableEq

def Response.body : Response → Text
  | .Json body => body
  | .Csv body => body
  | .Stream chunks => chunks.flatten

/-- `s.len()` of the parts -/
def Response.bytes : Response → ℕ
  | .Json body => Utf8.bytes body
  | .Csv body => Utf8.bytes body
  | .Stream chunks => (chunks.map Utf8.bytes).sum

def needs_math : Kind → Bool
  | .Summary | .ParticipantVotes | .ParticipantImportance | .CommentGroups => true
  | .Format | .Comments | .Votes => false

def FORMAT : Text := ["\x7b", "  \"format\": \"polis-export/1\",",
  "  \"vote-convention\": \"agree=+1;disagree=-1;pass=0;format=polis-export/1\",", "  \"vote\": \x7b",
  "    \"agree\": 1,", "    \"disagree\": -1,", "    \"pass\": 0", "  \x7d,", "  \"files\": \x7b",
  "    \"summary.csv\": \x7b", "      \"vote-convention\": \"declaration\"", "    \x7d,",
  "    \"votes.csv\": \x7b", "      \"vote\": \"vote\",", "      \"important\": \"flag\"", "    \x7d,",
  "    \"participant-votes.csv\": \x7b", "      \"<comment-id>\": \"vote\",", "      \"n-votes\": \"count\",",
  "      \"n-agree\": \"count\",", "      \"n-disagree\": \"count\"", "    \x7d,",
  "    \"participant-importance.csv\": \x7b", "      \"<comment-id>\": \"flag\",", "      \"n-votes\": \"count\",",
  "      \"n-important\": \"count\"", "    \x7d,", "    \"comments.csv\": \x7b", "      \"agrees\": \"count\",",
  "      \"disagrees\": \"count\",", "      \"importance\": \"count\"", "    \x7d,",
  "    \"comment-groups.csv\": \x7b", "      \"total-votes\": \"count\",", "      \"total-agrees\": \"count\",",
  "      \"total-disagrees\": \"count\",", "      \"total-passes\": \"count\",",
  "      \"group-<letter>-votes\": \"count\",", "      \"group-<letter>-agrees\": \"count\",",
  "      \"group-<letter>-disagrees\": \"count\",", "      \"group-<letter>-passes\": \"count\"", "    \x7d,",
  "    \"comment-clusters.csv\": \x7b\x7d", "  \x7d,",
  "  \"docs\": \"https://github.com/compdemocracy/polis/blob/edge/docs/export-format.md\"",
  "\x7d"].flatMap fun line => line.toList ++ ['\n']

/-- `contract::escape` -/
def escape (s : Text) : Text := '"' :: s.flatMap (fun c => if c = '"' then ['"', '"'] else [c]) ++ ['"']

/-- `EXPORT_DECLARATION`, without the name before it. -/
def declaration : Text := "agree=+1;disagree=-1;pass=0;format=polis-export/1".toList

def summary (site id topic description : Text) (commenters approved : ℕ) : Text :=
  "topic,".toList ++ escape topic ++ "\nurl,".toList ++ site ++ '/' :: id ++
    "\nvoters,0\nvoters-in-conv,0\ncommenters,".toList ++ num commenters ++ "\ncomments,".toList ++ num approved ++
    "\ngroups,0\nconversation-description,".toList ++ escape description ++ "\nvote-convention,".toList ++
    declaration

/-- What the loop over the votes of a comment counts. -/
structure Counts where
  agrees : ℕ
  disagrees : ℕ
  important : ℕ

def Counts.add (counts : Counts) (v : Vote) : Counts :=
  let counts := match StorageConvention.CURRENT.decode v.value with
    | some .Agree => { counts with agrees := counts.agrees + 1 }
    | some .Disagree => { counts with disagrees := counts.disagrees + 1 }
    | _ => counts
  { counts with important := counts.important + v.important.toNat }

/-- The line of a comment, unless its date is not written. -/
def commentLine (votes : List Vote) (row : CommentRow) : Option Text :=
  (date row.created).map fun (timestamp, datetime) =>
    let counts := (votes.filter fun v => v.tid = row.tid).foldl Counts.add ⟨0, 0, 0⟩
    timestamp ++ ',' :: datetime ++ ',' :: num row.tid ++ ',' :: num row.pid ++ ',' :: num counts.agrees ++
      ',' :: num counts.disagrees ++ ',' :: num row.mod ++ ',' :: num counts.important ++ ',' :: escape row.txt ++
      ['\n']

def commentsBody (comments : List CommentRow) (votes : List Vote) : Option Text :=
  let sorted := comments.insertionSort fun a b => b.velocity ≤ a.velocity
  (sorted.mapM (commentLine votes)).map fun lines =>
    "timestamp,datetime,comment-id,author-id,agrees,disagrees,moderated,importance,comment-body\n".toList ++
      lines.flatten

def voteLine (row : Vote) : Option Text :=
  (date row.created).map fun (timestamp, datetime) =>
    (if row.created = none then ['0'] else timestamp) ++ ',' :: datetime ++ ',' :: num row.tid ++
      ',' :: num row.pid ++ ',' :: num (StorageConvention.CURRENT.export_preserving_invalid row.value) ++
      ',' :: num row.important.toNat ++ ['\n']

def votesChunks (votes : List Vote) : Option (List Text) :=
  (votes.mapM voteLine).map fun lines => "timestamp,datetime,comment-id,voter-id,vote,important\n".toList :: lines

/-- `participants`: a map of maps, both of which iterate in the order of their keys. -/
def participants (kind : Kind) (ids : List ℤ) (votes : List Vote) : OrderedMap ℤ (OrderedMap ℤ Vote) :=
  votes.foldl (fun participants v =>
    let selected := (participants.get v.pid).getD .empty
    participants.set v.pid
      (if kind = .ParticipantVotes ∨ v.tid ∈ ids then selected.set v.tid v else selected)) .empty

/-- The line of a participant; the last counts differ. -/
def participantLine (kind : Kind) (comments : List CommentRow) (ids : List ℤ) (pid : ℤ)
    (selected : OrderedMap ℤ Vote) : Text :=
  let decoded := fun choice => selected.values.countP fun v =>
    StorageConvention.CURRENT.decode v.value = some choice
  num pid ++ ',' :: ',' :: num (comments.countP fun row => row.pid = pid) ++ ',' :: num selected.size ++
    (if kind = .ParticipantVotes then ',' :: num (decoded .Agree) ++ ',' :: num (decoded .Disagree)
      else ',' :: num (selected.values.countP (·.important))) ++
    ids.flatMap (fun id => ',' :: (selected.get id).elim [] fun v =>
      if kind = .ParticipantVotes then num (StorageConvention.CURRENT.export_preserving_invalid v.value)
      else num v.important.toNat) ++ ['\n']

/-- `Option<i64>`, where none comes first. -/
def createdLe : Option ℤ → Option ℤ → Bool
  | none, _ => true
  | some _, none => false
  | some a, some b => a ≤ b

def participantChunks (kind : Kind) (comments : List CommentRow) (votes : List Vote) : List Text :=
  let comments := comments.insertionSort fun a b => a.tid < b.tid ∨ a.tid = b.tid ∧ createdLe a.created b.created
  let ids := comments.map (·.tid)
  let header := if kind = .ParticipantVotes then
      "participant,group-id,n-comments,n-votes,n-agree,n-disagree".toList
    else "participant,group-id,n-comments,n-votes,n-important".toList
  let rows := (participants kind ids votes).entries.insertionSort fun a b => a.1 ≤ b.1
  (header ++ ids.flatMap (fun id => ',' :: num id) ++ ['\n']) ::
    rows.map fun (pid, selected) => participantLine kind comments ids pid selected

/-- What the service reads: a row of math, the tables, the conversations and the public id. -/
structure Stored where
  math : Bool
  comments : List CommentRow
  votes : List VoteRow
  conversations : List Conversation
  public_id : Option Text

/-- The rest of `read_cached`, once the comments are read and an entry counts the approved ones. -/
def render (kind : Kind) (stored : Stored) (site : Text) (comments : List CommentRow) (approved : Option ℕ) :
    Option Response :=
  match kind with
  | .Format => some (.Json FORMAT)
  | .CommentGroups => some (.Stream
      ["comment-id,comment,total-votes,total-agrees,total-disagrees,total-passes\n".toList])
  | .Summary =>
    match stored.public_id, stored.conversations, approved with
    | some id, [conv], some approved =>
      if 65536 < Utf8.bytes conv.topic + Utf8.bytes conv.description + Utf8.bytes id then none
      else some (.Csv (summary site id conv.topic conv.description (comments.map (·.pid)).dedup.length approved))
    | _, _, _ => none
  | kind =>
    (votes kind stored.votes).bind fun votes =>
      if kind ≠ .Comments ∧ ¬ (votes.map fun v => (v.tid, v.pid)).Nodup then none
      else
        let response := match kind with
          | .Comments => (commentsBody comments votes).map Response.Csv
          | .Votes => (votesChunks votes).map Response.Stream
          | kind => some (Response.Stream (participantChunks kind comments votes))
        response.filter fun response => response.bytes ≤ 1048576

/-- The answer, if there is one, and the entry of the conversation. -/
def read_cached (kind : Kind) (stored : Stored) (site : Text) (now : ℚ) (entry : Option Entry) :
    Option Response × Option Entry :=
  if kind = .Format then (some (.Json FORMAT), entry)
  else if needs_math kind = true ∧ stored.math = true then (none, entry)
  else match comments stored.comments with
    | none => (none, entry)
    | some comments =>
      if needs_math kind then
        let counted := if kind = .Summary ∨ kind = .CommentGroups then
          some (comments.countP fun row => 1 ≤ row.mod) else none
        let (approved, entry) := presentation entry now counted
        (render kind stored site comments approved, some entry)
      else (render kind stored site comments none, entry)

end Polis.ReportExport.Service
