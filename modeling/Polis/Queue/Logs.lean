import Polis.Common.Utf8
import Polis.Common.Decimal

/-!
# The log lines of a child

What a child prints is cut into lines that the table can hold, and kept up to a number of lines and of bytes;
the first piece that is not kept leaves a marker, and nothing is kept after it. The counters are natural
numbers: no process prints `2 ^ 63` lines or bytes.

Reference: `queue-rs/src/jobs/logs.rs`.
-/

namespace Polis.Queue.Logs

open Utf8

/-- `polis_queue_logs.line` holds no more bytes. -/
def MAX_LINE : ℕ := 1048576

structure Row where
  seq : ℕ
  stream : String
  line : List Char
deriving DecidableEq, Repr

/-- Postgres cannot hold a NUL. -/
def replaceNul (line : List Char) : List Char := line.map fun c => if c = Char.ofNat 0 then Char.ofNat 0xFFFD else c

/-- `split_line` -/
def split_line (line : List Char) : List (List Char) :=
  let clean := if Char.ofNat 0 ∈ line then replaceNul line else line
  if bytes clean ≤ MAX_LINE then [clean] else pieces MAX_LINE (by decide) clean

/-- The limits are fixed when it is made. -/
structure LogBuffer where
  max_lines : UInt64
  max_bytes : UInt64
  next_seq : ℕ
  kept_lines : ℕ
  kept_bytes : ℕ
  seen_lines : ℕ
  dropped_lines : ℕ
  truncated : Bool
  pending : List Row

namespace LogBuffer

variable (b : LogBuffer)

/-- `new` -/
def new (max_lines max_bytes : UInt64) : LogBuffer where
  max_lines
  max_bytes
  next_seq := 0
  kept_lines := 0
  kept_bytes := 0
  seen_lines := 0
  dropped_lines := 0
  truncated := false
  pending := []

/-- `enqueue` -/
def enqueue (stream : String) (line : List Char) : LogBuffer :=
  { b with pending := b.pending ++ [⟨b.next_seq, stream, line⟩], next_seq := b.next_seq + 1 }

/-- The line of the marker. -/
def marker : List Char :=
  "\x7b\"schema\":\"polis_jobs.truncated/1\",\"after_lines\":".toList ++ Nat.toDigits 10 b.kept_lines ++
    ",\"after_bytes\":".toList ++ Nat.toDigits 10 b.kept_bytes ++ ",\"max_lines\":".toList ++
      Nat.toDigits 10 b.max_lines.toNat ++ ",\"max_bytes\":".toList ++ Nat.toDigits 10 b.max_bytes.toNat ++
        "\x7d".toList

/-- The piece would go over a limit, or comes after one that did. -/
def refuses (piece : List Char) : Bool :=
  b.truncated || b.max_lines.toNat < b.kept_lines + 1 || b.max_bytes.toNat < b.kept_bytes + bytes piece

/-- One turn of the loop in `push`. -/
def pushPiece (stream : String) (piece : List Char) : LogBuffer :=
  let b' := { b with seen_lines := b.seen_lines + 1 }
  if b.refuses piece then
    let b'' := { b' with dropped_lines := b'.dropped_lines + 1 }
    if b.truncated then b'' else { b'' with truncated := true }.enqueue "truncated" b.marker
  else
    { b' with kept_lines := b'.kept_lines + 1, kept_bytes := b'.kept_bytes + bytes piece }.enqueue stream piece

/-- `push` -/
def push (stream : String) (line : List Char) : LogBuffer :=
  (split_line line).foldl (fun b piece => b.pushPiece stream piece) b

/-- `manifest_row` -/
def manifest_row (text : List Char) : LogBuffer × Row :=
  ({ b with next_seq := b.next_seq + 1 }, ⟨b.next_seq, "manifest", text⟩)

/-- `take` -/
def take : LogBuffer × List Row := ({ b with pending := [] }, b.pending)

end LogBuffer

/-! ## Sequences of calls -/

inductive Call
  | push (stream : String) (line : List Char)
  | take
  | manifest_row (text : List Char)

/-- The buffer with what it has given out: the batches that were taken, and the manifest rows. -/
structure Capture where
  buffer : LogBuffer
  taken : List Row
  manifests : List Row

namespace Capture

def next (c : Capture) : Call → Capture
  | .push stream line => { c with buffer := c.buffer.push stream line }
  | .take => { c with buffer := c.buffer.take.1, taken := c.taken ++ c.buffer.take.2 }
  | .manifest_row text => { c with
      buffer := (c.buffer.manifest_row text).1
      manifests := c.manifests ++ [(c.buffer.manifest_row text).2] }

/-- The calls on a new buffer. -/
def run (max_lines max_bytes : UInt64) (calls : List Call) : Capture :=
  calls.foldl next ⟨.new max_lines max_bytes, [], []⟩

/-- The rows from `push`, taken or not. -/
def rows (c : Capture) : List Row := c.taken ++ c.buffer.pending

end Capture

/-- The pieces that the calls push, with their streams. -/
def pushed : List Call → List (String × List Char)
  | [] => []
  | .push stream line :: calls => (split_line line).map (stream, ·) ++ pushed calls
  | .take :: calls | .manifest_row _ :: calls => pushed calls

/-- The texts of the manifest rows. -/
def manifestTexts : List Call → List (List Char)
  | [] => []
  | .manifest_row text :: calls => text :: manifestTexts calls
  | .push _ _ :: calls | .take :: calls => manifestTexts calls

end Polis.Queue.Logs
