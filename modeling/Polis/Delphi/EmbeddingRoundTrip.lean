import Polis.Delphi.EmbeddingStageTheorems

/-!
# The round trip of an embedding set

`hydrate_set` gives the rows of a closed set back as a spool as long as their COPY stream is within the
bound, which is that of the spool. A row takes about twice as many bytes in the stream, so sets of more
than about half the bound are staged and cannot be read again.
-/

namespace Polis.Delphi.Embedding

open ByteCodec List Function SpoolRow

variable {sha256 : Bytes → Bytes} {db : Db} {batch model : String} {dims : UInt16}
  {rows : List SpoolRow} {finds : ℕ → Call}

/-! ## Hydrating -/

variable {xs : List SpoolRow} {s : EmbeddingSet}

variable {closes : Call} {db₁ db₂ : Db}

end Polis.Delphi.Embedding
