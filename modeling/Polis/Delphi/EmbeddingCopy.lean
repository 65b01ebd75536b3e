import Polis.Delphi.EmbeddingSpoolTheorems

/-!
# The binary COPY stream of a set

The daemon streams a closed set out by `COPY … TO STDOUT (FORMAT binary)` and decodes the stream itself.
`copyStream` is what the server sends of a list of rows, as the daemon's own test builds it, and
`set_from_copy_binary` the decoder of `queue-rs/src/jobs/embedding.rs`, which also digests the rows.
-/

namespace Polis.Delphi.Embedding

open ByteCodec

/-! ## The stream -/

/-- `Copy::take` -/
def takeCopy : ℕ → Reader Bytes := take "embedding_copy_truncated"

def copyI32 : Reader Int32 := do
  let b ← takeCopy 4
  pure (UInt32.ofNat (ofBig b)).toInt32

/-- A signed number that must be the one given. -/
def expect (n : Int32) (message : String) : Reader Unit := do
  let v ← copyI32
  liftM (ensure (v = n) message)

variable (sha256 : Bytes → Bytes)

end Polis.Delphi.Embedding
