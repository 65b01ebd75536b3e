import Polis.Delphi.EmbeddingCopyTheorems

/-!
# Staging and hydrating a set

`stage_embeddings` reads the spool that a stage wrote, puts its rows in chunks and closes the set of the
attempt. `hydrate_set` streams a closed set out, checks it against the receipt of its close and writes
the spool of the next stage. The calls are transactions of the scope, one after another.
-/

namespace Polis.Delphi.Embedding

open ByteCodec

/-! ## The calls of a scope -/

/-- What the database has of the conversation and a model: its width, if there is a model of the name,
the tables, and the last value of the sequence. -/
structure Db where
  dims : Option ℕ
  tables : Tables
  seq : ℕ
deriving DecidableEq, Repr

namespace Db

/-- The next row of an `INSERT … ON CONFLICT DO NOTHING`: it takes a value of the sequence even if it is
skipped. -/
def insert (batch : String) (db : Db) (p : Proposal) : Db :=
  if db.tables.rows.any (·.tid = p.tid) then { db with seq := db.seq + 1 }
  else
    { db with
      tables := db.tables.write (.insert ⟨p.tid, db.seq + 1, p.text_sha, p.embedding, batch⟩)
      seq := db.seq + 1 }

/-- `pd_embedding_put` -/
def pd_embedding_put (db : Db) (batch : String) (c : Call) (p_tids : Option (SqlArray ℤ))
    (p_text_sha : Option (SqlArray Bytes)) (p_embeddings : Option (SqlArray Real4)) :
    Except String (Reply × Db) := do
  let s := db.tables.set batch
  let dims ← begin { c with dims := db.dims } (.put p_tids p_text_sha p_embeddings) s
  ensure (s = none) "embedding set closed"
  let rows ← (validRows dims p_tids p_text_sha p_embeddings).elim (.error "invalid embedding rows") .ok
  ensure (conflicts db.tables rows = false) "embedding text conflict"
  let db' := rows.foldl (insert batch) db
  let added := db'.tables.rows.length - db.tables.rows.length
  pure (.put rows.length added (rows.length - added), db')

variable (sha256 : Bytes → Bytes)

/-- `pd_embedding_close` -/
def pd_embedding_close (db : Db) (batch : String) (c : Call) : Except String (EmbeddingSet × Db) := do
  let s := db.tables.set batch
  let _ ← begin { c with dims := db.dims } .close s
  match s with
  | some s => pure (s, db)
  | none =>
    let s := closing sha256 batch db.tables
    pure (s, { db with tables := db.tables.write (.close s) })

/-- `pd_embedding_prune` of the scope. -/
def prune (db : Db) : Db := { db with tables := db.tables.write .prune }

end Db

/-! ## Staging -/

/-- A one-dimensional array of a `Vec`. -/
def vectorArray {α : Type*} (l : List α) : SqlArray α where
  dims := [(1, l.length)]
  elems := l.map some
  shape := by simp

/-- `Matrix` -/
def matrix (rows cols : ℕ) (data : List Real4) (h : data.length = rows * cols) : SqlArray Real4 where
  dims := [(1, rows), (1, cols)]
  elems := data.map some
  shape := by simpa using h

/-- `Rpc::embedding_put`; the identity of a claim always has its five parts. -/
def embedding_put (db : Db) (batch : String) (c : Call) (tids : List ℤ) (text_shas : List Bytes)
    (cols : ℕ) (data : List Real4) : Except String (Reply × Db) := do
  ensure (tids ≠ [] ∧ tids.length ≤ PUT_CHUNK) "embedding_put_chunk"
  if h : tids.length = text_shas.length ∧ data.length = tids.length * cols then
    db.pd_embedding_put batch c (some (vectorArray tids)) (some (vectorArray text_shas))
      (some (matrix tids.length cols data h.2))
  else .error "embedding_put_shape"

/-- `slice::chunks` -/
def chunks {α : Type*} (n : ℕ) (l : List α) : List (List α) :=
  if l = [] ∨ n = 0 then [] else l.take n :: chunks n (l.drop n)
termination_by l.length
decreasing_by
  rename_i h
  simp only [not_or] at h
  have := List.length_pos_iff.mpr h.1
  simp only [List.length_drop]
  omega

/-- `rows` of a reply. -/
def Reply.rows : Reply → Option ℕ
  | .put rows _ _ => some rows
  | .close _ => none

/-- The chunks one call each; the call for chunk `i` finds `finds i`. -/
def putChunks (batch : String) (dims : UInt16) (finds : ℕ → Call) :
    ℕ → List (List SpoolRow) → Db → Except String Db
  | _, [], db => pure db
  | i, chunk :: rest, db => do
    let (reply, db) ← embedding_put db batch (finds i) (chunk.map (·.tid.toInt))
      (chunk.map (·.text_sha.1)) dims.toNat (chunk.flatMap (·.vector))
    ensure (reply.rows = some chunk.length) "embedding_put_receipt"
    putChunks batch dims finds (i + 1) rest db

variable (sha256 : Bytes → Bytes)

/-- `sha256_hex` -/
def sha256_hex (bytes : Bytes) : String := hex (sha256 bytes)

/-- The database by the name of the model, for one conversation. -/
abbrev Database := String → Db

/-- The fields of `pd_embedding_receipt` that are read. -/
structure Receipt where
  batch_id : Option String
  model : Option String
  dims : Option ℕ
  row_count : Option ℕ
  sha256 : Option String
deriving DecidableEq, Repr

end Polis.Delphi.Embedding
