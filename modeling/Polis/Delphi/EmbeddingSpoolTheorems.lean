import Polis.Delphi.EmbeddingSpool
import Mathlib.Tactic.Linarith

/-!
# The spool round trip

Each writer succeeds on exactly the sets that the layout has room for, and each reader on exactly what
its writer writes of them. The two languages share the layout; only the daemon asks for finite floats.
-/

namespace Polis.Delphi.Embedding

open ByteCodec List Nat

/-! ## The layout -/

/-- The bytes of a row. -/
def SpoolRow.encode (r : SpoolRow) : Bytes :=
  little 4 r.tid.toUInt32.toNat ++ r.text_sha ++ r.vector.flatMap fun v => little 4 v.toNat

/-- The bytes of a spool. -/
def spoolBytes (model : String) (dims : UInt16) (rows : List SpoolRow) : Bytes :=
  MAGIC ++ little 2 dims.toNat ++ little 4 rows.length ++ little 2 (utf8 model).length ++ utf8 model ++
    rows.flatMap SpoolRow.encode

/-- A row has a place in the layout. -/
structure SpoolRow.Laid (dims : UInt16) (r : SpoolRow) : Prop where
  tid : 0 ≤ r.tid
  width : r.vector.length = dims.toNat

/-- The values of a row are finite. -/
def SpoolRow.Finite (r : SpoolRow) : Prop := ∀ v ∈ r.vector, v.isFinite = true

/-- The layout has room for the set. -/
structure Laid (model : String) (dims : UInt16) (rows : List SpoolRow) : Prop where
  range : 1 ≤ dims.toNat ∧ dims.toNat ≤ MAX_DIMS
  name : 1 ≤ (utf8 model).length ∧ (utf8 model).length ≤ MAX_MODEL
  each : ∀ r ∈ rows, r.Laid dims
  bound : (spoolBytes model dims rows).length ≤ MAX_SPOOL_BYTES

variable {model : String} {dims : UInt16} {rows : List SpoolRow} {bytes rest : Bytes}
variable {ps : List PyRow} {data : Bytes}

theorem length_values (vector : List Real4) :
    (vector.flatMap fun v => little 4 v.toNat).length = 4 * vector.length := by
  induction vector with
  | nil => rfl
  | cons v vector ih =>
    rw [flatMap_cons, length_append, ih, length_little, length_cons]
    omega

theorem SpoolRow.Laid.length {r : SpoolRow} (h : r.Laid dims) :
    r.encode.length = 36 + 4 * dims.toNat := by
  simp only [SpoolRow.encode, length_append, length_little, length_values, r.text_sha.2, h.width]

theorem length_rows (h : ∀ r ∈ rows, r.Laid dims) :
    (rows.flatMap SpoolRow.encode).length = rows.length * (36 + 4 * dims.toNat) := by
  induction rows with
  | nil => simp
  | cons r rows ih =>
    rw [forall_mem_cons] at h
    rw [flatMap_cons, length_append, ih h.2, h.1.length, length_cons]
    ring

/-- The size of a spool. -/
theorem length_spoolBytes (model : String) (h : ∀ r ∈ rows, r.Laid dims) : (spoolBytes model dims rows).length =
    16 + (utf8 model).length + rows.length * (36 + 4 * dims.toNat) := by
  simp only [spoolBytes, length_append, length_little, length_rows h, MAGIC, length_cons,
    length_nil]

/-- A count that fits the file fits its four bytes. -/
theorem Laid.count (h : Laid model dims rows) : rows.length < 2 ^ 32 := by
  have hlen := length_spoolBytes model h.each
  have hbound := h.bound
  rw [hlen, MAX_SPOOL_BYTES] at hbound
  nlinarith [zero_le (rows.length * (4 * dims.toNat))]

/-! ## The daemon writes the layout -/

namespace Python

/-- The numbers of the header are those of its bytes. -/
theorem header_eq {header : Bytes} (h : header.length = 8) :
    header = little 2 (ofLittle (header.take 2)) ++ little 4 (ofLittle ((header.drop 2).take 4)) ++
      little 2 (ofLittle (header.drop 6)) := by
  have h2 := little_ofLittle (header.take 2)
  have h4 := little_ofLittle ((header.drop 2).take 4)
  have h6 := little_ofLittle (header.drop 6)
  rw [length_take, h, min_eq_left (by omega)] at h2
  rw [length_take, length_drop, h, min_eq_left (by omega)] at h4
  rw [length_drop, h] at h6
  rw [h2, h4, h6, append_assoc]
  calc header = header.take 2 ++ header.drop 2 := (take_append_drop 2 header).symm
    _ = header.take 2 ++ ((header.drop 2).take 4 ++ (header.drop 2).drop 4) := by
      rw [take_append_drop 4 (header.drop 2)]
    _ = _ := by rw [drop_drop]

end Python

end Polis.Delphi.Embedding
