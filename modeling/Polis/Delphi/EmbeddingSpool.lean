import Polis.Common.ByteCodec
import Polis.Delphi.Embeddings

/-!
# The embeddings spool

One layout of bytes carries embeddings between the daemon and its Python stages. Each side has a writer
and a reader of its own: `queue-rs/src/jobs/embedding.rs`, and `embedding_spool.py` in `Python`. A float
is its 32 bits in both, so that nothing is said of how either language computes with it.
-/

namespace Polis.Delphi.Embedding

open ByteCodec

def MAX_SPOOL_BYTES : ℕ := 268435456
def MAGIC : Bytes := [80, 76, 69, 77, 66, 83, 80, 49]
def MAX_DIMS : ℕ := 2000
def MAX_MODEL : ℕ := 200
def PUT_CHUNK : ℕ := 4096
/-- The UTF-8 bytes of a string. -/
def utf8 (s : String) : Bytes := s.toByteArray.data.toList

/-- `Row` of the daemon. -/
structure SpoolRow where
  tid : Int32
  text_sha : { bytes : Bytes // bytes.length = 32 }
  vector : List Real4
deriving DecidableEq

namespace Python

/-- `struct.pack` of one number, in the range of its format. -/
def pack (w : ℕ) (lo hi n : ℤ) : Except String Bytes :=
  if lo ≤ n ∧ n < hi then .ok (little w (n % 256 ^ w).toNat) else .error "struct.error"

end Python

end Polis.Delphi.Embedding
