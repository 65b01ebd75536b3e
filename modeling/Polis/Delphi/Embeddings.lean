import Polis.Common.Locking
import Polis.Common.Newest
import Mathlib.Data.List.Dedup
import Mathlib.Algebra.Group.Nat.Defs

/-!
# Comment embeddings

An embedding is a row of its conversation, model and comment, numbered by one sequence. A set is a mark
in that sequence: it covers the rows up to it. `pd_embedding_put` and `pd_embedding_close` lock the
result batch, look its set up, and only then take the advisory lock of the conversation and the model.
-/

namespace Polis.Delphi.Embedding

abbrev Bytes := List UInt8

/-! ## Arrays -/

/-- A PostgreSQL array: the lower bound and the length of each dimension, and the elements row by
row. -/
structure SqlArray (α : Type*) where
  dims : List (ℤ × ℕ)
  elems : List (Option α)
  shape : elems.length = if dims = [] then 0 else (dims.map (·.2)).prod

namespace SqlArray

variable {α : Type*} (a : SqlArray α)

/-- `array_ndims`, which is null for an empty array. -/
def ndims : Option ℕ := if a.dims = [] then none else some a.dims.length

/-- `array_lower` -/
def lower (i : ℕ) : Option ℤ := a.dims[i - 1]?.map (·.1)

/-- `array_length` -/
def length (i : ℕ) : Option ℕ := a.dims[i - 1]?.map (·.2)

/-- `cardinality` -/
def cardinality : ℕ := a.elems.length

end SqlArray

/-- `<>`, which is not true of a null. -/
def differs {α : Type*} [DecidableEq α] (x y : Option α) : Bool :=
  match x, y with
  | some a, some b => a ≠ b
  | _, _ => false

/-- `unnest` of two arrays; the shorter one goes on with nulls. -/
def unnest {α β : Type*} : List (Option α) → List (Option β) → List (Option α × Option β)
  | [], bs => bs.map (none, ·)
  | a :: as, bs => (a, bs.head?.join) :: unnest as bs.tail

/-- The bits of a `real`. -/
abbrev Real4 := UInt32

/-- `NaN`, `Infinity` and `-Infinity` have every exponent bit set. -/
def Real4.isFinite (v : Real4) : Bool := (v >>> 23) &&& 255 ≠ 255

/-! ## Rows and sets -/

/-- The conversation and the model that share rows and a lock. -/
structure Scope where
  env : String
  zid : ℤ
  model : String
deriving DecidableEq, Repr

/-- A row of `delphi_comment_embeddings`. -/
structure Row where
  tid : ℤ
  seq : ℕ
  text_sha : Bytes
  embedding : List Real4
  batch_id : String
deriving DecidableEq, Repr

/-- A row of `delphi_embedding_sets`. -/
structure EmbeddingSet where
  batch_id : String
  seq_mark : ℕ
  row_count : ℕ
  max_tid : Option ℤ
  content_sha : String
deriving DecidableEq, Repr

/-- What the tables hold of a scope, oldest first. -/
structure Tables where
  rows : List Row
  sets : List EmbeddingSet
deriving DecidableEq, Repr

/-- The set of a batch. -/
def Tables.set (v : Tables) (batch : String) : Option EmbeddingSet :=
  v.sets.find? (·.batch_id = batch)

/-- `pd_embedding_rows` -/
def pd_embedding_rows (v : Tables) (batch : String) : List Row :=
  match v.set batch with
  | some s => sortByStamp (·.tid) (v.rows.filter (·.seq ≤ s.seq_mark))
  | none => []

/-! ## The digest -/

/-- `encode(_, 'hex')` -/
def hex (bytes : Bytes) : String :=
  .ofList (bytes.flatMap fun b => [Nat.digitChar (b.toNat / 16), Nat.digitChar (b.toNat % 16)])

/-- An integer of four bytes on the wire. -/
def int4send (n : ℕ) : Bytes :=
  [UInt8.ofNat (n / 16777216), UInt8.ofNat (n / 65536), UInt8.ofNat (n / 256), UInt8.ofNat n]

/-- `array_send` of a `real[]` of one dimension without nulls: the number of dimensions, the flags, the
element type, the length, the lower bound and the elements, each after its size. -/
def array_send (embedding : List Real4) : Bytes :=
  int4send 1 ++ int4send 0 ++ int4send 700 ++ int4send embedding.length ++ int4send 1 ++
    embedding.flatMap fun v => int4send 4 ++ int4send v.toNat

variable (sha256 : Bytes → Bytes)

/-- The line of a row. -/
def line (r : Row) : String :=
  toString r.tid ++ ":" ++ hex r.text_sha ++ ":" ++ hex (sha256 (array_send r.embedding))

/-- SHA-256 over the lines in the order of the comments. -/
def contentSha (rows : List Row) : String :=
  hex (sha256 ("\n".intercalate ((sortByStamp (·.tid) rows).map (line sha256))).toByteArray.data.toList)

/-- The set that a close inserts: everything stored. -/
def closing (batch : String) (v : Tables) : EmbeddingSet where
  batch_id := batch
  seq_mark := (v.rows.map (·.seq)).max?.getD 0
  row_count := v.rows.length
  max_tid := (v.rows.map (·.tid)).max?
  content_sha := contentSha sha256 v.rows

/-! ## Calls -/

/-- The arguments after the fence and the model. -/
inductive Request
  | put (p_tids : Option (SqlArray ℤ)) (p_text_sha : Option (SqlArray Bytes))
      (p_embeddings : Option (SqlArray Real4))
  | close

/-- What a call finds of its job, its result batch and its model. -/
structure Call where
  readCommitted : Bool
  /-- `pq_owns` -/
  owned : Bool
  /-- `dims` of the model, if there is one of that name. -/
  dims : Option ℕ
  /-- The batch is of the job and its run. -/
  bound : Bool
  sealed : Bool
deriving DecidableEq, Repr

/-- The checks before the advisory lock; `s` is the set of the batch. -/
def pd_embedding_batch (c : Call) (s : Option EmbeddingSet) : Except String ℕ :=
  match c.dims with
  | none => .error "unknown embedding model"
  | some dims =>
    if !c.bound then .error "result run binding"
    else if s = none ∧ c.sealed then .error "result batch sealed"
    else .ok dims

/-- The checks of a call up to the advisory lock. -/
def begin (c : Call) (req : Request) (s : Option EmbeddingSet) : Except String ℕ :=
  match req with
  | .put _ _ _ =>
    if !c.owned then .error "embedding writer fenced" else pd_embedding_batch c s
  | .close =>
    if !c.readCommitted then .error "embedding close requires read committed"
    else if !c.owned then .error "embedding writer fenced"
    else pd_embedding_batch c s

/-- A row that a put proposes. -/
structure Proposal where
  tid : ℤ
  text_sha : Bytes
  embedding : List Real4
deriving DecidableEq, Repr

/-- The rows of a put in the order of their comments. -/
def proposals (dims : ℕ) (p_tids : SqlArray ℤ) (p_text_sha : SqlArray Bytes)
    (p_embeddings : SqlArray Real4) : List Proposal :=
  sortByStamp (·.tid) <|
    (unnest p_tids.elems p_text_sha.elems).zipIdx.filterMap fun ((tid, sha), o) => do
      pure ⟨← tid, ← sha, ((p_embeddings.elems.drop (o * dims)).take dims).reduceOption⟩

/-- `invalid embedding rows`, unless it is the rows to insert. -/
def validRows (dims : ℕ) (p_tids : Option (SqlArray ℤ)) (p_text_sha : Option (SqlArray Bytes))
    (p_embeddings : Option (SqlArray Real4)) : Option (List Proposal) := do
  let tids ← p_tids
  let total := tids.cardinality
  let shas ← p_text_sha
  let embeddings ← p_embeddings
  if ¬(1 ≤ total ∧ total ≤ 4096) || differs tids.ndims (some 1) || differs (tids.lower 1) (some 1) ||
      differs shas.ndims (some 1) || differs (shas.lower 1) (some 1) || shas.cardinality ≠ total ||
      embeddings.ndims ≠ some 2 || differs (embeddings.lower 1) (some 1) ||
      differs (embeddings.lower 2) (some 1) || differs (embeddings.length 1) (some total) ||
      differs (embeddings.length 2) (some dims) ||
      (unnest tids.elems shas.elems).any (fun (tid, sha) =>
        tid.all (· < 0) || sha.all (·.length ≠ 32)) ||
      tids.elems.reduceOption.dedup.length ≠ total ||
      embeddings.elems.any (·.all (!·.isFinite)) then none
  else some (proposals dims tids shas embeddings)

/-- A comment is stored with another text. -/
def conflicts (v : Tables) (rows : List Proposal) : Bool :=
  rows.any fun p => v.rows.any fun r => r.tid = p.tid && r.text_sha ≠ p.text_sha

/-! ## Transactions -/

/-- The row of a result batch, and the rows of a scope. -/
inductive Resource
  | batch (env batch : String)
  | scope (k : Scope)
deriving DecidableEq, Repr

/-- What a transaction writes to a scope. -/
inductive Write
  | insert (r : Row)
  | close (s : EmbeddingSet)
  | prune
deriving DecidableEq, Repr

/-- The tables after a write. -/
def Tables.write (v : Tables) : Write → Tables
  | .insert r => { v with rows := v.rows ++ [r] }
  | .close s => { v with sets := v.sets ++ [s] }
  | .prune => ⟨[], []⟩

/-- The tables after the writes, oldest first. -/
def tablesAfter (h : List Write) : Tables := h.foldl Tables.write ⟨[], []⟩

/-- The primary keys of both tables. -/
def allowed : Resource → List Write → Write → Prop
  | .batch _ _, _, _ => False
  | .scope _, h, .insert r => ∀ r' ∈ (tablesAfter h).rows, r'.tid ≠ r.tid
  | .scope _, h, .close s => (tablesAfter h).set s.batch_id = none
  | .scope _, _, .prune => True

instance : ∀ k h, DecidablePred (allowed k h)
  | .batch _ _, _ => fun _ => isFalse id
  | .scope _, h => fun
    | .insert r => inferInstanceAs (Decidable (∀ r' ∈ (tablesAfter h).rows, r'.tid ≠ r.tid))
    | .close s => inferInstanceAs (Decidable ((tablesAfter h).set s.batch_id = none))
    | .prune => isTrue trivial

/-- What a call returns. -/
inductive Reply
  | put (rows added existing : ℕ)
  | close (s : EmbeddingSet)
deriving DecidableEq, Repr

/-- Where a transaction is. -/
inductive Phase
  /-- No call is under way; what the last one returned. -/
  | done (reply : Option Reply)
  /-- The batch is locked and its set looked up, the advisory lock is still to take. -/
  | found (k : Scope) (batch : String) (dims : ℕ) (s : Option EmbeddingSet) (req : Request)
  | locked (k : Scope) (batch : String) (dims : ℕ) (s : Option EmbeddingSet) (req : Request)
  /-- The `INSERT` of a put, with the rows that it has yet to propose. -/
  | inserting (k : Scope) (batch : String) (rows todo : List Proposal) (added : ℕ)
  /-- A call has raised; the transaction can only be rolled back. -/
  | failed (message : String)

/-- The tables, the sequence and the transactions. -/
structure Store where
  db : Locked Resource ℕ Write
  seq : ℕ
  phase : ℕ → Phase

/-- What happens next. -/
inductive Event
  | call (t : ℕ) (k : Scope) (batch : String) (c : Call) (req : Request)
  | lock (t : ℕ)
  | run (t : ℕ)
  /-- The next row of an `INSERT` meets the primary key. -/
  | insert (t : ℕ)
  | returned (t : ℕ)
  /-- `pd_embedding_prune` of one scope. -/
  | prune (t : ℕ) (k : Scope) (unfinished : Bool)
  | commit (t : ℕ)
  | rollback (t : ℕ)

/-- The transaction whose step it is. -/
def Event.transaction : Event → ℕ
  | .call t _ _ _ _ | .lock t | .run t | .insert t | .returned t | .prune t _ _ | .commit t
  | .rollback t => t

namespace Store

/-- Nothing is stored yet. -/
def init : Store := ⟨.init, 0, fun _ => .done none⟩

/-- The tables of a scope that a statement of the transaction sees. -/
def view (w : Store) (t : ℕ) (k : Scope) : Tables := tablesAfter (w.db.view t (.scope k))

/-- What is committed of a scope. -/
def committed (w : Store) (k : Scope) : Tables := tablesAfter (w.db.committed (.scope k))

/-- The transaction is at another place. -/
def put (w : Store) (t : ℕ) (p : Phase) : Store :=
  { w with phase := fun u => if u = t then p else w.phase u }

/-- The state after events of the transactions underneath. -/
def lift (w : Store) (es : List (Locked.Event Resource ℕ Write)) : Option Store :=
  (es.foldlM (Locked.next allowed) w.db).map fun db => { w with db }

/-- The rest of a call once it has the lock. -/
def run (w : Store) (t : ℕ) (k : Scope) (batch : String) (dims : ℕ) (s : Option EmbeddingSet) :
    Request → Option Store
  | .put p_tids p_text_sha p_embeddings =>
    if s ≠ none then some (w.put t (.failed "embedding set closed"))
    else
      match validRows dims p_tids p_text_sha p_embeddings with
      | none => some (w.put t (.failed "invalid embedding rows"))
      | some rows =>
        if conflicts (w.view t k) rows then some (w.put t (.failed "embedding text conflict"))
        else some (w.put t (.inserting k batch rows rows 0))
  | .close =>
    match s with
    | some s => some (w.put t (.done (some (.close s))))
    | none =>
      let s := closing sha256 batch (w.view t k)
      (w.put t (.done (some (.close s)))).lift [.write t (.scope k) (.close s)]

/-- The next row of an `INSERT`: it takes a value of the sequence even if it is skipped. -/
def insert (w : Store) (t : ℕ) (k : Scope) (batch : String) (rows : List Proposal) (p : Proposal)
    (todo : List Proposal) (added : ℕ) : Option Store :=
  let w' := { w with seq := w.seq + 1 }
  if (w.view t k).rows.any (·.tid = p.tid) then some (w'.put t (.inserting k batch rows todo added))
  else
    (w'.put t (.inserting k batch rows todo (added + 1))).lift
      [.write t (.scope k) (.insert ⟨p.tid, w.seq + 1, p.text_sha, p.embedding, batch⟩)]

/-- The state after the event, if it can happen. -/
def next (w : Store) : Event → Option Store
  | .call t k batch c req =>
    match w.phase t with
    | .done _ =>
      let s := (w.view t k).set batch
      match begin c req s with
      | .error message => some (w.put t (.failed message))
      | .ok dims => (w.put t (.found k batch dims s req)).lift [.lock t (.batch k.env batch)]
    | _ => none
  | .lock t =>
    match w.phase t with
    | .found k batch dims s req =>
      (w.put t (.locked k batch dims s req)).lift [.lock t (.scope k)]
    | _ => none
  | .run t =>
    match w.phase t with
    | .locked k batch dims s req => w.run sha256 t k batch dims s req
    | _ => none
  | .insert t =>
    match w.phase t with
    | .inserting k batch rows (p :: todo) added => w.insert t k batch rows p todo added
    | _ => none
  | .returned t =>
    match w.phase t with
    | .inserting _ _ rows [] added =>
      some (w.put t (.done (some (.put rows.length added (rows.length - added)))))
    | _ => none
  | .prune t k unfinished =>
    match w.phase t with
    | .done _ =>
      if unfinished then
        some (w.put t (.failed "embedding prune: conversation has unfinished jobs"))
      else (w.put t (.done none)).lift [.lock t (.scope k), .write t (.scope k) .prune]
    | _ => none
  | .commit t =>
    match w.phase t with
    | .done _ => (w.put t (.done none)).lift [.commit t]
    | _ => none
  | .rollback t => (w.put t (.done none)).lift [.rollback t]

/-- One step of the transactions. -/
def Step (w : Store) (e : Event) (w' : Store) : Prop := w.next sha256 e = some w'

end Store

end Polis.Delphi.Embedding
