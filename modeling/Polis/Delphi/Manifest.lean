import Polis.Queue.Substrate

/-!
# The manifest of a finished process

A process that ends writes a manifest, a JSON line of its log. `pd_finalize` looks for the line by its
digest and checks what it says.

Reference: `server/postgres/migrations/000023_create_delphi_foundation.sql`.
-/

namespace Polis.Delphi

open Queue

/-! ## JSON -/

/-- A `jsonb` value; a number is its text. -/
inductive Json
  | null
  | bool (b : Bool)
  | number (text : String)
  | string (s : String)
  | array (items : List Json)
  | object (members : List (String × Json))

inductive JsonError
  /-- `invalid_text_representation` -/
  | invalidText
  | other (message : String)

/-- What the database computes from a text. -/
structure Builtins where
  /-- `encode(sha256(convert_to(line,'UTF8')),'hex')` -/
  sha256Hex : String → String
  /-- `raw::jsonb` -/
  jsonb : String → Except JsonError Json
  /-- The text of an array or an object. -/
  jsonText : Json → String

namespace Json

def isObject : Json → Bool
  | .object _ => true
  | _ => false

/-- `m->key` -/
def member (m : Json) (key : String) : Option Json :=
  match m with
  | .object members => (members.find? (·.1 = key)).map Prod.snd
  | _ => none

/-- `m ? key`, asked of an object. -/
def has (m : Json) (key : String) : Bool := (m.member key).isSome

/-- The elements of an array. -/
def items? : Json → Option (List Json)
  | .array items => some items
  | _ => none

/-- The text that `->>` gives a member. -/
def text (b : Builtins) : Json → Option String
  | .null => none
  | .bool v => some (if v then "true" else "false")
  | .number text => some text
  | .string s => some s
  | m => some (b.jsonText m)

/-- `m->>key` -/
def field (b : Builtins) (m : Json) (key : String) : Option String := (m.member key).bind (text b)

end Json

/-! ## Texts -/

/-- The text of a UUID: 32 hex digits in five groups. -/
def uuidText (id : Uuid) : String :=
  let digits := Nat.toDigits 16 id
  let padded := List.replicate (32 - digits.length) '0' ++ digits
  let group := fun i n => String.ofList ((padded.drop i).take n)
  "-".intercalate [group 0 8, group 8 4, group 12 4, group 16 4, group 20 12]

/-- `~ '^[0-9]+$'` -/
def isDigits (s : String) : Bool := s ≠ "" && s.toList.all fun c => '0' ≤ c && c ≤ '9'

/-- `~ '^file://.+'` -/
def isFileUri (s : String) : Bool := s.startsWith "file://" && 7 < s.length

def stageText : Stage → String
  | .noop => "noop"
  | .fullPipeline => "delphi_full_pipeline"
  | .narrative => "delphi_narrative"
  | .mathRebuild => "math_rebuild"

/-! ## The checks -/

variable (b : Builtins)

/-- An output is a table that says where its rows are and how many. -/
def outputAccepted (o : Json) : Bool :=
  o.field b "store" = some "dynamodb" && (o.field b "table").getD "" ≠ "" &&
    (o.has "keys" || o.has "key_prefix") && isDigits ((o.field b "rows").getD "")

/-- The manifest is that of the attempt and lists its outputs. -/
def manifestAccepted (m : Json) (job attempt : Uuid) (stage : Stage) : Bool :=
  m.field b "schema" = some "polis-jobs.output-manifest/1" &&
    m.field b "job_id" = some (uuidText job) && m.field b "attempt_id" = some (uuidText attempt) &&
    m.field b "stage" = some (stageText stage) && m.field b "outcome" = some "succeeded" &&
    ["submit", "recheck", "run"].contains ((m.field b "phase").getD "") &&
    ((m.member "outputs").bind Json.items?).any (·.all (outputAccepted b)) &&
    (m.member "inputs").any Json.isObject && (m.member "models").any Json.isObject &&
    (m.member "cost").any Json.isObject &&
    (m.member "artifacts").all fun a => a.items?.any List.isEmpty

/-- The last manifest line of an attempt with a digest. -/
def manifestLine (db : Database) (env : String) (attempt : Uuid) (sha : String) : Option String :=
  (((db.logs.rows.filter fun l => l.env = env ∧ l.attemptId = attempt ∧ l.stream = .manifest ∧
    b.sha256Hex l.line = sha).insertionSort fun l l' => l'.seq ≤ l.seq).head?).map (·.line)

/-- The receipt names a manifest in the log of the attempt that passes the checks. -/
def receiptAccepted (db : Database) (j : JobRow) (attempt : Uuid) (uri sha : Option String) :
    Except DbError Bool :=
  match uri, sha with
  | some uri, some sha =>
    if !isFileUri uri || 2048 < uri.length || !isSha256 sha then .ok false
    else match manifestLine b db j.env attempt sha with
      | none => .ok false
      | some raw => match b.jsonb raw with
        | .ok m => .ok (manifestAccepted b m j.jobId attempt j.stage)
        | .error .invalidText => .ok false
        | .error (.other message) => .error (.raised message)
  | _, _ => .ok false

end Polis.Delphi
