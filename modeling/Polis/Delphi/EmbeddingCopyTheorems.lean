import Polis.Delphi.EmbeddingCopy

/-!
# The daemon decodes what the server sends

Of rows that have a place in the spool the decoder gives these rows and the digest over their lines, if
the stream is within the bound, which is the spool's. A row takes more bytes in the stream than in the
spool.
-/

namespace Polis.Delphi.Embedding

open ByteCodec List SpoolRow

variable {sha256 : Bytes → Bytes} {model : String} {dims : UInt16} {rows : List SpoolRow}
  {bytes rest : Bytes}

/-- What the table holds of a row. -/
def SpoolRow.proposal (r : SpoolRow) : Proposal := ⟨r.tid.toInt, r.text_sha, r.vector⟩

/-- The line of a row. -/
def SpoolRow.line (sha256 : Bytes → Bytes) (r : SpoolRow) : String :=
  toString r.tid.toInt ++ ":" ++ hex r.text_sha ++ ":" ++ hex (sha256 (array_send r.vector))

/-! ## Sizes -/

end Polis.Delphi.Embedding
