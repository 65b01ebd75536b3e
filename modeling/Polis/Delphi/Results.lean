import Polis.Delphi.Manifest
import Mathlib.Data.List.Dedup
import Mathlib.Algebra.GroupWithZero.Nat

/-!
# Result batches

An attempt puts result families into its batch, as codec text with a header and a row on each line. The
batch is sealed with a digest of its families and bound to the artifact of the job, whose payload holds
the families itself or refers to the seal. Every call gets the lock of the job's queue row, and what it
raises undoes what it wrote.

Reference: `server/postgres/migrations/000028_create_delphi_results.sql`,
`server/postgres/migrations/000038_create_delphi_comment_embeddings.sql`.
-/

namespace Polis.Delphi.Results

open Queue

/-! ## Values -/

/-- `delphi_result_catalog` -/
def catalog : List (String × List (String × String)) :=
  [("Delphi_PCAConversationConfig", [("zid", "S")]),
    ("Delphi_PCAResults", [("zid", "S"), ("math_tick", "N")]),
    ("Delphi_KMeansClusters", [("zid_tick", "S"), ("group_id", "N")]),
    ("Delphi_CommentRouting", [("zid_tick", "S"), ("comment_id", "S")]),
    ("Delphi_RepresentativeComments", [("zid_tick_gid", "S"), ("comment_id", "S")]),
    ("Delphi_PCAParticipantProjections", [("zid_tick", "S"), ("participant_id", "S")]),
    ("Delphi_UMAPConversationConfig", [("conversation_id", "S")]),
    ("Delphi_CommentEmbeddings", [("conversation_id", "S"), ("comment_id", "N")]),
    ("Delphi_CommentHierarchicalClusterAssignments", [("conversation_id", "S"), ("comment_id", "N")]),
    ("Delphi_CommentClustersStructureKeywords", [("conversation_id", "S"), ("cluster_key", "S")]),
    ("Delphi_UMAPGraph", [("conversation_id", "S"), ("edge_id", "S")]),
    ("Delphi_CommentClustersFeatures", [("conversation_id", "S"), ("cluster_key", "S")]),
    ("Delphi_CommentClustersLLMTopicNames", [("conversation_id", "S"), ("topic_key", "S")]),
    ("Delphi_NarrativeReports", [("rid_section_model", "S"), ("timestamp", "S")]),
    ("Delphi_CommentExtremity", [("conversation_id", "S"), ("comment_id", "S")]),
    ("Delphi_TopicAgendaSelections", [("conversation_id", "S"), ("participant_id", "S")]),
    ("Delphi_CollectiveStatement", [("zid_topic_jobid", "S")]),
    ("report_narrative_store", [("rid_section_model", "S"), ("timestamp", "S")])]

/-- `key_spec` -/
def keySpec (family : String) : Option (List (String × String)) :=
  (catalog.find? (·.1 = family)).map (·.2)

/-- The text of a `jsonb` string. -/
def stringOf : Json → Option String
  | .string s => some s
  | _ => none

/-- `split_part(text, c, 1)` -/
def splitPart (c : Char) (text : String) : String := .ofList (text.toList.takeWhile (· ≠ c))

/-- `^-?(0|[1-9][0-9]*)([.][0-9]*[1-9])?$`, without `-0`, in the range of a DynamoDB number. -/
def isNumber (t : String) : Bool :=
  let unsigned := if t.toList.head? = some '-' then t.toList.tail else t.toList
  let whole := unsigned.takeWhile Char.isDigit
  let rest := unsigned.dropWhile Char.isDigit
  let fraction := rest.tail
  let digits := whole ++ fraction
  let mantissa := Nat.ofDigitChars 10 digits 0
  let trimmed := ((digits.dropWhile (· = '0')).reverse.dropWhile (· = '0')).reverse
  t.length ≤ 256 && whole ≠ [] && (whole = ['0'] || whole.head? ≠ some '0') &&
    (rest = [] || (rest.head? = some '.' && fraction.all Char.isDigit && fraction ≠ [] &&
      fraction.getLast? ≠ some '0')) &&
    t ≠ "-0" &&
    (mantissa = 0 || (10 ^ fraction.length ≤ mantissa * 10 ^ 130 &&
      mantissa < 10 ^ (126 + fraction.length))) &&
    trimmed.length ≤ 38

/-- The six bits of a base64 character. -/
def base64Value (c : Char) : Option ℕ :=
  if 'A' ≤ c ∧ c ≤ 'Z' then some (c.toNat - 65)
  else if 'a' ≤ c ∧ c ≤ 'z' then some (c.toNat - 71)
  else if '0' ≤ c ∧ c ≤ '9' then some (c.toNat + 4)
  else if c = '+' then some 62
  else if c = '/' then some 63
  else none

/-- Text that base64 gives some bytes: groups of four, the last one padded after zero bits. -/
def isBase64 : List Char → Bool
  | [] => true
  | [a, b, '=', '='] => (base64Value a).isSome && (base64Value b).any (· % 16 = 0)
  | [a, b, c, '='] =>
    (base64Value a).isSome && (base64Value b).isSome && (base64Value c).any (· % 4 = 0)
  | a :: b :: c :: d :: rest =>
    [a, b, c, d].all (fun x => (base64Value x).isSome) && isBase64 rest
  | _ => false

/-- `pd_result_valid_value` of the tags without parts. -/
def validScalar (tag : String) (body : Json) : Bool :=
  match tag, body with
  | "S", .string _ => true
  | "BOOL", .bool _ => true
  | "NULL", .bool v => v
  | "N", .string t => isNumber t
  | "B", .string t => isBase64 t.toList
  | _, _ => false

mutual

/-- `pd_result_valid_value` -/
def validValue : Json → Bool
  | .object [(tag, body)] =>
    match tag, body with
    | "M", .object members => validMembers members
    | "L", .array items => validItems items
    | "SS", .array items | "NS", .array items | "BS", .array items =>
      items ≠ [] && (items.map stringOf).dedup.length = items.length &&
        items.all (validScalar (tag.take 1).toString)
    | _, _ => validScalar tag body
  | _ => false

def validMembers : List (String × Json) → Bool
  | [] => true
  | (_, v) :: members => validValue v && validMembers members

def validItems : List Json → Bool
  | [] => true
  | v :: items => validValue v && validItems items

end

/-! ## Tables -/

/-- What a job's node says: its conversation and its run. -/
structure Node where
  zid : ℤ
  run : Uuid
deriving DecidableEq, Repr

/-- A row of `delphi_result_batches`; a batch has the id of its attempt. -/
structure Batch where
  id : Uuid
  job : Uuid
  run : Uuid
  sealed_sha : Option String
  artifact : Option Uuid
deriving DecidableEq, Repr

/-- A batch is sealed once. -/
def Batch.setSeal (sha : String) (b : Batch) : Batch :=
  { b with sealed_sha := b.sealed_sha.or (some sha) }

def Batch.setArtifact (id : Uuid) (b : Batch) : Batch := { b with artifact := some id }

/-- A row of `delphi_result_families`. -/
structure Family where
  batch : Uuid
  family : String
  codec_wire : String
  content_sha : String
  row_count : ℕ
deriving DecidableEq, Repr

/-- A part of a key is a value under its tag. -/
abbrev Key := List (String × String)

/-- A row of `delphi_result_rows`. -/
structure ResultRow where
  batch : Uuid
  family : String
  item_key : Key
  ordinal : ℕ
  item : Json

/-- A row of `delphi_artifacts`. -/
structure Artifact where
  id : Uuid
  job : Uuid
  run : Uuid
  attempt : Uuid
  payload : String
deriving DecidableEq, Repr

/-- The tables of one environment that the calls read and write. -/
structure Store where
  jobs : Uuid → Option JobRow
  nodes : Uuid → Option Node
  /-- The job of an attempt. -/
  attempts : Uuid → Option Uuid
  reports : List (ℤ × String)
  batches : List Batch
  families : List Family
  rows : List ResultRow
  artifacts : List Artifact

namespace Store

/-- No result is stored yet. -/
def init : Store := ⟨fun _ => none, fun _ => none, fun _ => none, [], [], [], [], []⟩

def batch (w : Store) (id : Uuid) : Option Batch := w.batches.find? (·.id = id)

/-- The families of a batch. -/
def familiesOf (w : Store) (id : Uuid) : List Family := w.families.filter (·.batch = id)

def family (w : Store) (id : Uuid) (name : String) : Option Family :=
  (w.familiesOf id).find? (·.family = name)

/-- The rows of a family. -/
def rowsOf (w : Store) (id : Uuid) (name : String) : List ResultRow :=
  w.rows.filter fun r => r.batch = id ∧ r.family = name

/-- The columns of a batch change. -/
def updateBatch (w : Store) (id : Uuid) (f : Batch → Batch) : Store :=
  { w with batches := w.batches.map fun b => if b.id = id then f b else b }

end Store

/-! ## A family -/

/-- What a call raises. -/
abbrev Raises := Except String

/-- The row, or the error that there is none. -/
def strict {α : Type*} (row : Option α) : Raises α :=
  match row with
  | some a => pure a
  | none => .error "query returned no rows"

/-- Raises unless the condition holds. -/
def ensure (p : Bool) (message : String) : Raises Unit :=
  if p then pure () else .error message

/-- The batch of the attempt, after an insert that skips one that is there. -/
def openBatch (w : Store) (job attempt run : Uuid) : Raises (Batch × Store) :=
  match w.batch attempt with
  | some b => do
    ensure (b.job = job && b.run = run) "result run binding"
    pure (b, w)
  | none => do
    ensure (w.attempts attempt = some job) "violates foreign key constraint"
    let b := ⟨attempt, job, run, none, none⟩
    pure (b, { w with batches := w.batches ++ [b] })

variable (b : Builtins)

/-- `text::jsonb` -/
def parse (text : String) : Raises Json :=
  match b.jsonb text with
  | .ok v => pure v
  | .error .invalidText => .error "invalid input syntax for type json"
  | .error (.other message) => .error message

/-- The lines of the wire, without its last character. -/
def linesOf (wire : String) : List String :=
  match wire.toList.dropLast with
  | [] => []
  | text => (text.splitOn '\n').map .ofList

/-- The header of a family with these key attributes. -/
def isHeader (family : String) (keys : List String) (head : Json) : Bool :=
  match head with
  | .object members =>
    members.length = 3 &&
      (head.member "codec").bind stringOf = some "delphi-storage-codec/1" &&
      (head.member "family").bind stringOf = some family &&
      ((head.member "key").bind Json.items?).map (·.map stringOf) = some (keys.map some)
  | _ => false

/-- A part of the key of a row. -/
def keyPart (row : Json) (part : String × String) : Raises (String × String) :=
  match row.member part.1 with
  | some (.object [(tag, .string value)]) =>
    if tag = part.2 then pure (tag, value) else .error "invalid result key"
  | _ => .error "invalid result key"

/-- `row->attribute->>tag` -/
def tagged (row : Json) (name tag : String) : Option String :=
  (row.member name).bind fun v => v.field b tag

/-- An attribute names another conversation; a part of a null text is null, and differs from nothing. -/
def conversationMismatch (zid : ℤ) (row : Json) : Bool :=
  (row.has "conversation_id" && tagged b row "conversation_id" "S" ≠ some (toString zid)) ||
    (row.has "zid" && (tagged b row "zid" "S" <|> tagged b row "zid" "N") ≠
      some (toString zid)) ||
    (row.has "zid_tick" && (tagged b row "zid_tick" "S").any (splitPart ':' · ≠ toString zid)) ||
    (row.has "zid_tick_gid" &&
      (tagged b row "zid_tick_gid" "S").any (splitPart ':' · ≠ toString zid)) ||
    (row.has "zid_topic_jobid" &&
      (tagged b row "zid_topic_jobid" "S").any (splitPart '#' · ≠ toString zid))

/-- The row is of a report of the conversation. -/
def reportFound (reports : List (ℤ × String)) (zid : ℤ) (row : Json) : Bool :=
  reports.any fun r =>
    r.1 = zid && (tagged b row "rid_section_model" "S").any (splitPart '#' · = r.2) &&
      (!row.has "report_id" || tagged b row "report_id" "S" = some r.2)

/-- The attributes of a row. -/
def rowMembers (row : Json) : Raises (List (String × Json)) :=
  match row with
  | .object members => pure members
  | _ => .error "invalid result row"

/-- The key of a row, after its checks. -/
def checkRow (reports : List (ℤ × String)) (zid : ℤ) (spec : List (String × String)) (row : Json) :
    Raises Key := do
  let members ← rowMembers row
  ensure (members.all fun a => a.1 ≠ "" && validValue a.2) "invalid result row"
  let key ← spec.mapM (keyPart row)
  ensure (!conversationMismatch b zid row) "result conversation mismatch"
  ensure (!row.has "rid_section_model" || reportFound b reports zid row)
    "result report conversation mismatch"
  pure key

/-- The rows of the lines, numbered from `i`; a key is stored once. -/
def insertRows (zid : ℤ) (spec : List (String × String)) (batch : Uuid) (family : String) :
    Store → ℕ → List String → Raises Store
  | w, _, [] => pure w
  | w, i, line :: lines => do
    let row ← parse b line
    let key ← checkRow b w.reports zid spec row
    ensure ((w.rowsOf batch family).all (·.item_key ≠ key)) "duplicate key value"
    insertRows zid spec batch family { w with rows := w.rows ++ [⟨batch, family, key, i, row⟩] }
      (i + 1) lines

/-- The wire, after the checks of its bytes. -/
def wireBytes (wire : Option String) : Raises String :=
  match wire with
  | some wire =>
    if 67108864 < wire.utf8ByteSize ∨ wire.toList.getLast? ≠ some '\n' then
      .error "invalid result family bytes"
    else pure wire
  | none => .error "invalid result family bytes"

/-- `pd_result_insert_family`, with its receipt. -/
def pd_result_insert_family (w : Store) (job attempt : Uuid) (family : String)
    (wire : Option String) : Raises ((String × ℕ) × Store) := do
  let n ← strict (w.nodes job)
  let spec ← strict (keySpec family)
  let wire ← wireBytes wire
  let (batch, w) ← openBatch w job attempt n.run
  match w.family attempt family with
  | some old =>
    ensure (old.codec_wire = wire) "immutable result family conflict"
    pure ((old.content_sha, old.row_count), w)
  | none =>
    ensure (batch.sealed_sha = none) "result batch sealed"
    ensure (((w.familiesOf attempt).map (·.codec_wire.utf8ByteSize)).sum + wire.utf8ByteSize ≤
      268435456) "result batch byte limit"
    match linesOf wire with
    | [] => .error "invalid result codec header"
    | head :: lines =>
      let head ← parse b head
      ensure (isHeader family (spec.map (·.1)) head) "invalid result codec header"
      let f := ⟨attempt, family, wire, b.sha256Hex wire, lines.length⟩
      let w ← insertRows b n.zid spec attempt family { w with families := w.families ++ [f] } 1 lines
      pure ((f.content_sha, f.row_count), w)

/-! ## The seal -/

/-- `delphi-result-batch/1` -/
structure Seal where
  batch_id : Uuid
  sha256 : String
  families : List String
deriving DecidableEq, Repr

/-- The families in the order of their names. -/
def byName (families : List Family) : List Family :=
  families.insertionSort fun f g => f.family ≤ g.family

/-- The digest of the families of a batch. -/
def digest (families : List Family) : String :=
  b.sha256Hex <| "\n".intercalate <| (byName families).map fun f =>
    f.family ++ ":" ++ f.content_sha ++ ":" ++ toString f.row_count

/-- `pd_result_seal_internal` -/
def pd_result_seal_internal (w : Store) (attempt : Uuid) : Raises (Seal × Store) := do
  let sha := digest b (w.familiesOf attempt)
  let w := w.updateBatch attempt (Batch.setSeal sha)
  ensure ((w.batch attempt).any (·.sealed_sha = some sha)) "result seal mismatch"
  pure (⟨attempt, sha, (byName (w.familiesOf attempt)).map (·.family)⟩, w)

/-- The `results` of a payload are the seal. -/
def isReference (s : Seal) (ref : Json) : Bool :=
  match ref with
  | .object members =>
    members.length = 4 &&
      (ref.member "schema").bind stringOf = some "delphi-result-batch/1" &&
      (ref.member "batch_id").bind stringOf = some (uuidText s.batch_id) &&
      (ref.member "sha256").bind stringOf = some s.sha256 &&
      ((ref.member "families").bind Json.items?).map (·.map stringOf) = some (s.families.map some)
  | _ => false

/-! ## The artifact -/

/-- `doc ? key`: a member of an object, or an element of an array, or the string itself. -/
def mentions (doc : Json) (key : String) : Bool :=
  match doc with
  | .array items => items.any fun v => stringOf v = some key
  | .string s => s = key
  | _ => doc.has key

/-- The families that the payload holds. -/
def insertInline (job attempt : Uuid) : Store → List (String × Json) → Raises Store
  | w, [] => pure w
  | w, (name, wire) :: files => do
    ensure (stringOf wire).isSome "invalid inline codec bytes"
    let (_, w) ← pd_result_insert_family b w job attempt name (stringOf wire)
    insertInline job attempt w files

/-- The inline families; an array or a string has no member, and a null decides nothing. -/
def inlineFiles (doc : Json) : Raises (List (String × Json)) :=
  match doc.member "family_files" with
  | none => pure []
  | some (.object (file :: files)) => pure (file :: files)
  | some _ => .error "invalid inline result families"

/-- The seal of the families that the payload holds, if it does. -/
def sealInline (w : Store) (a : Artifact) (doc : Json) : Raises (Option Seal × Store) :=
  if mentions doc "family_files" then do
    ensure (!mentions doc "results") "invalid inline result families"
    let files ← inlineFiles doc
    let w ← insertInline b a.job a.attempt w files
    let (s, w) ← pd_result_seal_internal b w a.attempt
    pure (some s, w)
  else pure (none, w)

/-- `pd_result_bind_artifact`, after the insert of the artifact. -/
def pd_result_bind_artifact (w : Store) (a : Artifact) : Raises Store := do
  let doc ← parse b a.payload
  if !mentions doc "family_files" && !mentions doc "results" then pure w
  else
    let (ref, w) ← sealInline b w a doc
    let batch ← strict (w.batch a.attempt)
    let (expected, w) ← pd_result_seal_internal b w a.attempt
    let matched := match ref with
      | some s => decide (s = expected)
      | none => (doc.member "results").any (isReference expected)
    ensure (matched && batch.job = a.job && batch.run = a.run && batch.artifact = none)
      "artifact result binding"
    pure (w.updateBatch a.attempt (Batch.setArtifact a.id))

/-- The insert of an artifact, with its trigger. -/
def insertArtifact (w : Store) (a : Artifact) : Raises Store := do
  ensure ((w.nodes a.job).any (·.run = a.run) && w.attempts a.attempt = some a.job)
    "violates foreign key constraint"
  ensure (w.artifacts.all fun a' => a'.id ≠ a.id && a'.job ≠ a.job) "duplicate key value"
  ensure (a.payload.utf8ByteSize ≤ 524288) "violates check constraint"
  pd_result_bind_artifact b { w with artifacts := w.artifacts ++ [a] } a

/-! ## Calls -/

/-- The attempt that holds the job. -/
def fence (w : Store) (job : Uuid) (token : Token) (now : Time) (message : String) : Raises Uuid :=
  match w.jobs job, token.attempt with
  | some j, some attempt => do
    ensure (pqOwns j token now) message
    pure attempt
  | _, _ => .error message

/-- `pd_embedding_batch`: whether there is a model of the name, and a set of the batch. -/
def pd_embedding_batch (w : Store) (job attempt : Uuid) (model set : Bool) : Raises Store := do
  let n ← strict (w.nodes job)
  ensure model "unknown embedding model"
  let (batch, w) ← openBatch w job attempt n.run
  ensure (set || batch.sealed_sha = none) "result batch sealed"
  pure w

/-- What happens next. -/
inductive Event
  /-- The queue leases, ends or takes back a job. -/
  | queue (job : Uuid) (row : Option JobRow)
  | node (job : Uuid) (n : Node)
  | attempt (id job : Uuid)
  | report (zid : ℤ) (id : String)
  | pd_result_put_family (job : Uuid) (token : Token) (now : Time) (family : String)
      (wire : Option String)
  | pd_result_seal (job : Uuid) (token : Token) (now : Time)
  | artifact (a : Artifact)
  /-- `pd_embedding_put` or `pd_embedding_close`, and whether what follows the batch raises. -/
  | embedding (job : Uuid) (token : Token) (now : Time) (model set raises : Bool)

/-- The tables after a call, or what it raises. -/
def call (w : Store) : Event → Raises Store
  | .queue job row => pure { w with jobs := fun j => if j = job then row else w.jobs j }
  | .node job n => do
    ensure (w.nodes job = none) "duplicate key value"
    pure { w with nodes := fun j => if j = job then some n else w.nodes j }
  | .attempt id job => do
    ensure (w.attempts id = none) "duplicate key value"
    pure { w with attempts := fun i => if i = id then some job else w.attempts i }
  | .report zid id => pure { w with reports := w.reports ++ [(zid, id)] }
  | .pd_result_put_family job token now family wire => do
    let attempt ← fence w job token now "result writer fenced"
    let (_, w) ← pd_result_insert_family b w job attempt family wire
    pure w
  | .pd_result_seal job token now => do
    let attempt ← fence w job token now "result writer fenced"
    let (_, w) ← pd_result_seal_internal b w attempt
    pure w
  | .artifact a => insertArtifact b w a
  | .embedding job token now model set raises => do
    let attempt ← fence w job token now "embedding writer fenced"
    let w ← pd_embedding_batch w job attempt model set
    ensure (!raises) "embedding call refused"
    pure w

/-- A call takes place or leaves the tables as they were. -/
def after (w : Store) (e : Event) : Store :=
  match call b w e with
  | .ok w' => w'
  | .error _ => w

/-- One call. -/
def Step (w : Store) (e : Event) (w' : Store) : Prop := w' = after b w e

end Polis.Delphi.Results
