import Mathlib.Data.List.Basic

/-!
# Hexadecimal text by its bytes

Text in `[0-9a-f]` is the same text as UTF-8 bytes, which are quicker to look at than characters.
-/

namespace Polis

open List

/-- A byte of `[0-9a-f]`. -/
def isHexByte (b : UInt8) : Bool := (48 ≤ b && b ≤ 57) || (97 ≤ b && b ≤ 102)

theorem isHexByte_ofNat {n : ℕ} (h : n < 256) : isHexByte (UInt8.ofNat n) = true ↔
    48 ≤ n ∧ n ≤ 57 ∨ 97 ≤ n ∧ n ≤ 102 := by
  have hn : (UInt8.ofNat n).toNat = n := by
    rw [UInt8.toNat_ofNat']
    omega
  simp [isHexByte, UInt8.le_iff_toNat_le, hn, -UInt8.toNat_ofNat']

theorem hexChar_iff (c : Char) : (('0' ≤ c && c ≤ '9') || ('a' ≤ c && c ≤ 'f')) = true ↔
    48 ≤ c.val.toNat ∧ c.val.toNat ≤ 57 ∨ 97 ≤ c.val.toNat ∧ c.val.toNat ≤ 102 := by
  simp [Char.le_def, UInt32.le_iff_toNat_le]

/-- A character of `[0-9a-f]` is one byte, and no byte of another character is in the range. -/
theorem utf8EncodeChar_hex (c : Char) : (String.utf8EncodeChar c).all isHexByte =
    (('0' ≤ c && c ≤ '9') || ('a' ≤ c && c ≤ 'f')) := by
  rw [Bool.eq_iff_iff, hexChar_iff]
  unfold String.utf8EncodeChar
  dsimp only
  split
  · rw [all_cons, all_nil, Bool.and_true, isHexByte_ofNat (by omega)]
  · split
    · rw [all_cons, Bool.and_eq_true, isHexByte_ofNat (by omega)]
      omega
    · split
      · rw [all_cons, Bool.and_eq_true, isHexByte_ofNat (by omega)]
        omega
      · rw [all_cons, Bool.and_eq_true, isHexByte_ofNat (by omega)]
        omega

theorem length_of_hex {l : List Char} (h : (l.flatMap String.utf8EncodeChar).all isHexByte = true) :
    (l.flatMap String.utf8EncodeChar).length = l.length := by
  induction l with
  | nil => rfl
  | cons c l ih =>
    rw [flatMap_cons, all_append, Bool.and_eq_true, utf8EncodeChar_hex, hexChar_iff] at h
    have hone : c.utf8Size = 1 := by
      rw [Char.utf8Size_eq_one_iff, UInt32.le_iff_toNat_le]
      show c.val.toNat ≤ 127
      omega
    rw [flatMap_cons, length_append, String.length_utf8EncodeChar, hone, ih h.2,
      length_cons]
    omega

/-- Hexadecimal text of a length, by its bytes. -/
theorem hexText_iff (s : String) (n : ℕ) :
    (s.length = n && s.toList.all fun c => ('0' ≤ c && c ≤ '9') || ('a' ≤ c && c ≤ 'f')) = true ↔
      s.toByteArray.data.toList.length = n ∧ s.toByteArray.data.toList.all isHexByte = true := by
  have hbytes : s.toByteArray.data.toList = s.toList.flatMap String.utf8EncodeChar := by
    rw [← String.utf8Encode_toList, List.utf8Encode, data_toByteArray]
  have hall : (s.toList.flatMap String.utf8EncodeChar).all isHexByte =
      s.toList.all fun c => ('0' ≤ c && c ≤ '9') || ('a' ≤ c && c ≤ 'f') := by
    rw [all_flatMap]
    exact congrArg s.toList.all (funext utf8EncodeChar_hex)
  rw [hbytes, Bool.and_eq_true, ← hall, decide_eq_true_eq]
  constructor
  · rintro ⟨hlen, h⟩
    rw [length_of_hex h, String.length_toList]
    exact ⟨hlen, h⟩
  · rintro ⟨hlen, h⟩
    rw [length_of_hex h, String.length_toList] at hlen
    exact ⟨hlen, h⟩

end Polis
