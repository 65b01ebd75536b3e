import Polis.Common.JsonText
import Polis.Queue.Schema

/-!
# The manifest that a child leaves

The daemon takes the bytes of the file as they are, or says which field is wrong. Text is read as
`serde_json` reads it, with a number kept as it is written.

Reference: `queue-rs/src/jobs/manifest.rs`.
-/

namespace Polis.Daemon

open JsonText Queue

/-! ## Values -/

abbrev Value := Json Number

/-- U+0000 is a character like any other. -/
def serdeString (s : Str) : Except Unit String := do
  let t ← decode () (.ok (Char.ofNat 0)) s
  pure (.ofList t)

section Read

variable (finite : Number → Bool)

/-- `finite` says that the nearest double is finite. -/
def serdeNumber (n : Number) : Except Unit Number := if finite n then .ok n else .error ()

/-- `serde_json::from_str` -/
def fromStr (text : String) : Option Value :=
  match parse text.toList with
  | some t => if 127 < t.depth then none else (read serdeString (serdeNumber finite) t).toOption
  | none => none

end Read

/-- A number without a point or an exponent. -/
def isInteger (n : Number) : Bool := n.frac = [] && n.exp = none

/-- A negative zero is a float. -/
def isI64 (n : Number) : Bool :=
  isInteger n && if n.neg then 0 < digitsValue n.whole && digitsValue n.whole ≤ 2 ^ 63
    else digitsValue n.whole < 2 ^ 63

def numberU64 (n : Number) : Option ℕ :=
  if isInteger n && !n.neg && digitsValue n.whole < 2 ^ 64 then some (digitsValue n.whole) else none

def asU64 : Value → Option ℕ
  | .number n => numberU64 n
  | _ => none

def asStr : Value → Option String
  | .string s => some s
  | _ => none

def asArray : Value → Option (List Value)
  | .array a => some a
  | _ => none

abbrev Map := List (String × Value)

def asObject : Value → Option Map
  | .object m => some m
  | _ => none

def get (o : Map) (key : String) : Option Value := (o.find? (·.1 = key)).map Prod.snd

def containsKey (o : Map) (key : String) : Bool := (get o key).isSome

/-- `m[key]`, which is null where there is no such member. -/
def index (m : Value) (key : String) : Value := ((asObject m).bind (get · key)).getD .null

/-- `m[key] == s` -/
def isStr (m : Value) (key s : String) : Bool := asStr (index m key) = some s

/-! ## The fields -/

inductive Invalid
  | missing
  | tooLarge
  | notUtf8
  | nul
  | notJson
  | field (name : String)
deriving DecidableEq, Repr

def check (p : Bool) (name : String) : Except Invalid Unit := if p then .ok () else .error (.field name)

/-- `ok_or(Invalid::Field(name))` -/
def need {α : Type} (x : Option α) (name : String) : Except Invalid α :=
  match x with
  | some a => .ok a
  | none => .error (.field name)

/-- `closed`: the keys are these and no others. -/
def hasKeys (o : Map) (keys : List String) : Bool :=
  o.length = keys.length && keys.all (containsKey o)

def closed (o : Map) (keys : List String) (name : String) : Except Invalid Unit :=
  check (hasKeys o keys) name

def isNull : Value → Bool
  | .null => true
  | _ => false

def nullableStr (v : Value) (name : String) : Except Invalid Unit :=
  check (isNull v || (asStr v).isSome) name

def nullableInt (v : Value) (name : String) : Except Invalid Unit :=
  check (isNull v || match v with
    | .number n => isI64 n || (numberU64 n).isSome
    | _ => false) name

/-- A digest of 64 hex digits, or null. -/
def nullableHex64 (v : Value) (name : String) : Except Invalid Unit :=
  check (isNull v || (asStr v).any isSha256) name

def schema : String := "polis-jobs.output-manifest/1"

def writerSchema : String := "polis-jobs.output-manifest/2"

def maxBytes : ℕ := 1048576

def rootKeys : List String :=
  ["schema", "job_id", "attempt_id", "stage", "phase", "outcome", "inputs", "outputs", "models", "cost",
    "recheck_after", "duration_ms"]

def inputKeys : List String :=
  ["math_env", "math_tick", "math_caching_tick", "comment_set_sha256", "vote_hwm"]

def modelKeys : List String := ["embed", "topic", "narrative"]

def clusterModelKeys : List String := ["cluster", "cluster_seed"]

def costKeys : List String := ["llm_tokens_in", "llm_tokens_out", "provider_batches"]

/-- RFC 3339 with an offset, as far as it is checked. -/
def isTimestamp (s : String) : Bool :=
  let b := s.toUTF8.data.toList
  let at_ := fun i => b.getD i 0
  20 ≤ b.length && b.length ≤ 40 && at_ 4 = '-'.toUInt8 && at_ 7 = '-'.toUInt8 &&
    (at_ 10 = 'T'.toUInt8 || at_ 10 = 't'.toUInt8) && at_ 13 = ':'.toUInt8 && at_ 16 = ':'.toUInt8 &&
    (b.take 4).all (fun c => '0'.toUInt8 ≤ c && c ≤ '9'.toUInt8) &&
    (at_ (b.length - 1) = 'Z'.toUInt8 || at_ (b.length - 1) = 'z'.toUInt8 ||
      -- `s.get(19..)` is none inside a character.
      (!(128 ≤ at_ 19 && at_ 19 < 192) &&
        (b.drop 19).any fun c => c = '+'.toUInt8 || c = '-'.toUInt8))

/-- `validate_embedding_spool` -/
def embeddingSpool (v : Value) : Bool :=
  (asObject v).any fun o =>
    hasKeys o ["file", "sha256", "model", "dims", "rows"] && isStr v "file" "embeddings.spool" &&
      (asStr (index v "sha256")).any isSha256 &&
      (asStr (index v "model")).any (fun m => 1 ≤ m.utf8ByteSize && m.utf8ByteSize ≤ 200) &&
      (asU64 (index v "dims")).any (fun d => 1 ≤ d && d ≤ 2000) && (asU64 (index v "rows")).isSome

/-- The keys of a writer's manifest; its embeddings may have a spool of their own. -/
def writerKeys (root : Map) : List String :=
  rootKeys ++ [if containsKey root "family_spool" then "family_spool" else "results"] ++
    if containsKey root "embedding_spool" then ["embedding_spool"] else []

def checkRoot (m : Value) (root : Map) (writer : Bool) : Except Invalid Unit := do
  check (!(writer && containsKey root "embedding_spool") || embeddingSpool (index m "embedding_spool"))
    "embedding_spool"
  closed root (if writer then writerKeys root else rootKeys) "root"

inductive Outcome
  | succeeded
  | parked
deriving DecidableEq, Repr

def readOutcome (m : Value) : Except Invalid Outcome :=
  if isStr m "outcome" "succeeded" then .ok .succeeded
  else if isStr m "outcome" "parked" then .ok .parked
  else .error (.field "outcome")

def checkInputs (m : Value) : Except Invalid Unit := do
  let inputs ← need (asObject (index m "inputs")) "inputs"
  closed inputs inputKeys "inputs"
  nullableStr (index (index m "inputs") "math_env") "inputs.math_env"
  nullableInt (index (index m "inputs") "math_tick") "inputs.math_tick"
  nullableInt (index (index m "inputs") "math_caching_tick") "inputs.math_caching_tick"
  nullableInt (index (index m "inputs") "vote_hwm") "inputs.vote_hwm"
  nullableHex64 (index (index m "inputs") "comment_set_sha256") "inputs.comment_set_sha256"

/-- Where the rows of an output are: under a prefix, or under each of some keys. -/
def partitions (o : Map) : Except Invalid (List Value) :=
  match get o "key_prefix", get o "keys" with
  | some p, none => do
    closed o ["store", "family", "table", "rows", "key_prefix"] "outputs"
    pure [p]
  | none, some (.array ks) => do
    closed o ["store", "family", "table", "rows", "keys"] "outputs"
    pure ks
  | _, _ => .error (.field "outputs")

/-- A partition is an object of strings. -/
def isPartition (p : Value) : Bool :=
  (asObject p).any fun p => p ≠ [] && p.all fun e => (asStr e.2).isSome

def checkOutput (writer : Bool) (v : Value) : Except Invalid Unit := do
  let o ← need (asObject v) "outputs"
  let ps ← partitions o
  check (isStr v "store" (if writer then "postgres" else "dynamodb") &&
    (asStr (index v "family")).any (· ≠ "") && (asStr (index v "table")).any (· ≠ "") &&
    (asU64 (index v "rows")).isSome && ps.all isPartition) "outputs"

def checkOutputs (writer : Bool) : List Value → Except Invalid Unit
  | [] => .ok ()
  | o :: outputs => do
    checkOutput writer o
    checkOutputs writer outputs

def checkModels (m : Value) : Except Invalid Unit := do
  let models ← need (asObject (index m "models")) "models"
  let clustered := clusterModelKeys.any (containsKey models)
  closed models (if clustered then modelKeys ++ clusterModelKeys else modelKeys) "models"
  nullableStr (index (index m "models") "embed") "models"
  nullableStr (index (index m "models") "topic") "models"
  nullableStr (index (index m "models") "narrative") "models"
  check (!clustered || ((asStr (index (index m "models") "cluster")).any (· ≠ "") &&
    (asU64 (index (index m "models") "cluster_seed")).any (· < 2 ^ 32))) "models"

def checkBatch (v : Value) : Except Invalid Unit := do
  let b ← need (asObject v) "cost.provider_batches"
  closed b ["provider", "batch_id", "submitted_at"] "cost.provider_batches"
  check (b.all fun e => (asStr e.2).any (· ≠ "")) "cost.provider_batches"

def checkBatches : List Value → Except Invalid Unit
  | [] => .ok ()
  | b :: batches => do
    checkBatch b
    checkBatches batches

def providerBatches (v : Value) : Except Invalid (List Value) :=
  match v with
  | .null => .ok []
  | .array list => do
    checkBatches list
    pure list
  | _ => .error (.field "cost.provider_batches")

def checkCost (m : Value) : Except Invalid (List Value) := do
  let cost ← need (asObject (index m "cost")) "cost"
  closed cost costKeys "cost"
  nullableInt (index (index m "cost") "llm_tokens_in") "cost.llm_tokens_in"
  nullableInt (index (index m "cost") "llm_tokens_out") "cost.llm_tokens_out"
  providerBatches (index (index m "cost") "provider_batches")

/-- Set exactly when the outcome is parked. -/
def recheckAfter (m : Value) (outcome : Outcome) : Except Invalid (Option String) :=
  match index m "recheck_after", outcome with
  | .null, .succeeded => .ok none
  | .string s, .parked => if isTimestamp s then .ok (some s) else .error (.field "recheck_after")
  | _, _ => .error (.field "recheck_after")

/-! ## The manifest -/

structure Manifest where
  text : String
  sha256 : String
  outcome : Outcome
  phase : String
  recheck_after : Option String
  batch_id : Option String
  batch_ids : List String
  tokens_in : Option ℕ
  tokens_out : Option ℕ
deriving DecidableEq, Repr

/-- The ids of the provider batches that are not empty. -/
def batchId (b : Value) : Option String := (asStr (index b "batch_id")).filter (· ≠ "")

section Validate

variable (finite : Number → Bool) (sha256Hex : String → String)

def validateValue (text : String) (m : Value) (job attempt stage : String) : Except Invalid Manifest := do
  let root ← need (asObject m) "root"
  let writer := isStr m "schema" writerSchema
  checkRoot m root writer
  check (isStr m "schema" schema || writer) "schema"
  check (isStr m "job_id" job) "job_id"
  check (isStr m "attempt_id" attempt) "attempt_id"
  check (isStr m "stage" stage) "stage"
  let phase ← need (asStr (index m "phase")) "phase"
  check (["run", "submit", "recheck"].contains phase) "phase"
  let outcome ← readOutcome m
  checkInputs m
  let outputs ← need (asArray (index m "outputs")) "outputs"
  checkOutputs writer outputs
  checkModels m
  let batches ← checkCost m
  let recheck ← recheckAfter m outcome
  check (asU64 (index m "duration_ms")).isSome "duration_ms"
  pure {
    text
    sha256 := sha256Hex text
    outcome
    phase
    recheck_after := recheck
    batch_id := batches.head?.bind batchId
    batch_ids := batches.filterMap batchId
    tokens_in := asU64 (index (index m "cost") "llm_tokens_in")
    tokens_out := asU64 (index (index m "cost") "llm_tokens_out") }

/-- `manifest::validate` -/
def validate (bytes : Option ByteArray) (job attempt stage : String) : Except Invalid Manifest :=
  match bytes with
  | none => .error .missing
  | some bytes =>
    if maxBytes < bytes.size then .error .tooLarge
    else if bytes.data.contains 0 then .error .nul
    else match String.fromUTF8? bytes with
      | none => .error .notUtf8
      | some text => match fromStr finite text with
        | none => .error .notJson
        | some m => validateValue sha256Hex text m job attempt stage

end Validate

end Polis.Daemon
