import Mathlib.Data.List.DropRight
import Mathlib.Algebra.Order.Field.Rat
import Mathlib.Tactic.Ring
import Mathlib.Tactic.FieldSimp

/-!
# Decimal numerals

Digit strings, and decimals as a whole number with a count of digits after the point. The text of a
decimal shows both, so no two decimals share a text; without trailing zeros no two share a value.
-/

namespace Polis

open List Nat

/-! ## Digit strings -/

/-- Decimal digits only. -/
def Digits (l : List Char) : Prop := ∀ c ∈ l, c.isDigit = true

instance (l : List Char) : Decidable (Digits l) :=
  List.decidableBAll _ l

/-- The number that a digit string writes. -/
def digitsValue (l : List Char) : ℕ := Nat.ofDigitChars 10 l 0

variable {l m : List Char} {c : Char}

theorem Digits.cons (h : Digits (c :: l)) : c.isDigit = true ∧ Digits l :=
  ⟨h c mem_cons_self, fun d hd => h d (mem_cons_of_mem _ hd)⟩

theorem Digits.append (hl : Digits l) (hm : Digits m) : Digits (l ++ m) := fun c hc =>
  (mem_append.1 hc).elim (hl c) (hm c)

theorem Digits.of_append (h : Digits (l ++ m)) : Digits l ∧ Digits m :=
  ⟨fun c hc => h c (mem_append_left _ hc), fun c hc => h c (mem_append_right _ hc)⟩

theorem Digits.zeros (n : ℕ) : Digits (List.replicate n '0') := fun c hc => by
  rw [eq_of_mem_replicate hc]
  rfl

theorem Digits.toDigits (n : ℕ) : Digits (Nat.toDigits 10 n) := fun _ hc =>
  isDigit_of_mem_toDigits (by omega) (by omega) hc

theorem isDigit_toNat (h : c.isDigit = true) : 48 ≤ c.toNat ∧ c.toNat ≤ 57 := by
  simpa [Char.isDigit, UInt32.le_iff_toNat_le] using h

theorem ne_of_isDigit {d : Char} (h : c.isDigit = true) (hd : d.isDigit = false) : c ≠ d := by
  rintro rfl
  exact absurd h (by simp [hd])

theorem digitChar_of_isDigit (h : c.isDigit = true) : (c.toNat - 48).digitChar = c := by
  have := isDigit_toNat h
  apply Char.toNat_inj.1
  rw [toNat_digitChar_of_lt_ten (by omega)]
  omega

theorem digitsValue_append (l m : List Char) :
    digitsValue (l ++ m) = 10 ^ m.length * digitsValue l + digitsValue m := by
  rw [digitsValue, ofDigitChars_append, ofDigitChars_eq_ofDigitChars_zero]
  rfl

theorem digitsValue_concat (l : List Char) (c : Char) :
    digitsValue (l ++ [c]) = 10 * digitsValue l + (c.toNat - 48) := by
  rw [digitsValue_append]
  simp [digitsValue, ofDigitChars_cons]

theorem digitsValue_cons (c : Char) (l : List Char) :
    digitsValue (c :: l) = 10 ^ l.length * (c.toNat - 48) + digitsValue l := by
  have h := digitsValue_append [c] l
  simpa [digitsValue, ofDigitChars_cons] using h

theorem digitsValue_toDigits (n : ℕ) : digitsValue (Nat.toDigits 10 n) = n :=
  ofDigitChars_ten_toDigits

theorem digitsValue_append_zeros (l : List Char) (n : ℕ) :
    digitsValue (l ++ List.replicate n '0') = digitsValue l * 10 ^ n := by
  rw [digitsValue, ofDigitChars_append, ofDigitChars_replicate_zero, mul_comm]
  rfl

theorem digitsValue_zeros_append (n : ℕ) (l : List Char) :
    digitsValue (List.replicate n '0' ++ l) = digitsValue l := by
  rw [digitsValue, ofDigitChars_append, ofDigitChars_replicate_zero, mul_zero]
  rfl

theorem digitsValue_lt (h : Digits l) : digitsValue l < 10 ^ l.length := by
  induction l with
  | nil => simp [digitsValue]
  | cons c l ih =>
    have hc := isDigit_toNat h.cons.1
    have hl := ih h.cons.2
    rw [digitsValue_cons, length_cons, pow_succ]
    have hle : 10 ^ l.length * (c.toNat - 48) ≤ 10 ^ l.length * 9 :=
      mul_le_mul_left _ (by omega)
    omega

theorem digitsValue_pos (h : Digits (c :: l)) (hc : c ≠ '0') : 0 < digitsValue (c :: l) := by
  have hd := isDigit_toNat h.cons.1
  have hne : c.toNat ≠ 48 := fun heq => hc (Char.toNat_inj.1 heq)
  rw [digitsValue_cons]
  have : 0 < 10 ^ l.length * (c.toNat - 48) := Nat.mul_pos (Nat.pow_pos (by omega)) (by omega)
  omega

/-- Digit strings of one length are determined by their values. -/
theorem digits_eq (hl : Digits l) (hm : Digits m) (hlen : l.length = m.length)
    (h : digitsValue l = digitsValue m) : l = m := by
  induction l generalizing m with
  | nil => exact (length_eq_zero_iff.1 hlen.symm).symm
  | cons c l ih =>
    cases m with
    | nil => cases hlen
    | cons d m =>
      have hlen' : l.length = m.length := Nat.succ.inj hlen
      have hlt := digitsValue_lt hl.cons.2
      have hlt' := digitsValue_lt hm.cons.2
      rw [digitsValue_cons, digitsValue_cons, hlen'] at h
      rw [hlen'] at hlt
      have hpos : 0 < 10 ^ m.length := Nat.pow_pos (by omega)
      -- The first digit is the quotient by the power of ten, the others write the remainder.
      have hc : c.toNat - 48 = d.toNat - 48 := by
        have hdiv := congrArg (· / 10 ^ m.length) h
        simpa [mul_add_div hpos, div_eq_of_lt hlt, div_eq_of_lt hlt'] using hdiv
      have hcd : c = d := by
        rw [← digitChar_of_isDigit hl.cons.1, ← digitChar_of_isDigit hm.cons.1, hc]
      rw [hc] at h
      rw [hcd, ih hl.cons.2 hm.cons.2 hlen' (by omega)]

/-- A digit string with no superfluous zero in front is the numeral of its value. -/
theorem toDigits_digitsValue (h : Digits (c :: l)) (hc : c ≠ '0') :
    Nat.toDigits 10 (digitsValue (c :: l)) = c :: l := by
  induction l using List.reverseRecOn with
  | nil =>
    have := isDigit_toNat h.cons.1
    rw [digitsValue_cons, digitsValue, ofDigitChars_nil, length_nil, pow_zero,
      one_mul, add_zero, toDigits_of_lt_base (by omega),
      digitChar_of_isDigit h.cons.1]
  | append_singleton l d ih =>
    rw [← cons_append] at h ⊢
    have hd := h.of_append.2.cons.1
    have := isDigit_toNat hd
    have hpos := digitsValue_pos h.of_append.1 hc
    rw [digitsValue_concat, ← toDigits_append_toDigits (by omega) hpos (by omega),
      ih h.of_append.1, toDigits_of_lt_base (by omega), digitChar_of_isDigit hd]

/-- Only the numeral of zero starts with a zero. -/
theorem toDigits_head (n : ℕ) (h : (Nat.toDigits 10 n).head? = some '0') : n = 0 := by
  obtain ⟨l, hl⟩ := head?_eq_some_iff.1 h
  have hn : digitsValue l = n := by
    have hv := digitsValue_zeros_append 1 l
    rwa [← digitsValue_toDigits n, hl, ← hv]
  have hdigits : Digits l := (hl ▸ Digits.toDigits n).cons.2
  cases l with
  | nil => exact hn.symm
  | cons c l =>
    have hlt := digitsValue_lt hdigits
    rw [hn, ← length_toDigits_le_iff (by omega) (by simp), hl] at hlt
    simp at hlt

/-- The `n` last digits of a number, with the zeros in front. -/
def lastDigits : ℕ → ℕ → List Char
  | 0, _ => []
  | n + 1, m => lastDigits n (m / 10) ++ [(m % 10).digitChar]

theorem length_lastDigits (n m : ℕ) : (lastDigits n m).length = n := by
  induction n generalizing m with
  | zero => rfl
  | succ n ih => rw [lastDigits, length_append, ih, length_singleton]

theorem Digits.lastDigits (n m : ℕ) : Digits (lastDigits n m) := by
  induction n generalizing m with
  | zero => exact fun _ hc => nomatch hc
  | succ n ih =>
    refine (ih _).append fun c hc => ?_
    rw [mem_singleton.1 hc, isDigit_digitChar]
    exact decide_eq_true (mod_lt _ (by omega))

theorem digitsValue_lastDigits (n m : ℕ) : digitsValue (lastDigits n m) = m % 10 ^ n := by
  induction n generalizing m with
  | zero => simp [Polis.lastDigits, digitsValue, mod_one]
  | succ n ih =>
    rw [Polis.lastDigits, digitsValue_concat, ih, toNat_digitChar_of_lt_ten (by omega),
      pow_succ', mod_mul]
    omega

theorem lastDigits_digitsValue (hm : Digits m) (n : ℕ) :
    lastDigits m.length (10 ^ m.length * n + digitsValue m) = m :=
  digits_eq (.lastDigits _ _) hm (length_lastDigits _ _) (by
    rw [digitsValue_lastDigits, mul_add_mod, mod_eq_of_lt (digitsValue_lt hm)])

/-- Where a run of characters ends is plain from the character that follows it. -/
theorem span_inj {α : Type*} {p : α → Bool} {l m r s : List α} (hl : ∀ a ∈ l, p a = true)
    (hm : ∀ a ∈ m, p a = true) (hr : ∀ a ∈ r.head?, p a = false) (hs : ∀ a ∈ s.head?, p a = false)
    (h : l ++ r = m ++ s) : l = m ∧ r = s := by
  have hspan : ∀ {l r : List α}, (∀ a ∈ l, p a = true) → (∀ a ∈ r.head?, p a = false) →
      (l ++ r).takeWhile p = l := by
    intro l r hl hr
    rw [takeWhile_append_of_pos hl]
    cases r with
    | nil => simp
    | cons a r => simp [hr a rfl]
  have hlm : l = m := by rw [← hspan hl hr, h, hspan hm hs]
  rw [hlm] at h
  exact ⟨hlm, append_cancel_left h⟩

/-! ## Decimals -/

/-- A whole number, `scale` of whose digits stand after the point. -/
structure Decimal where
  mantissa : ℤ
  scale : ℕ
deriving DecidableEq

namespace Decimal

/-- The number, exactly. -/
def value (d : Decimal) : ℚ := d.mantissa / 10 ^ d.scale

/-- The digits of a magnitude, with the point. -/
def unsignedText (n scale : ℕ) : List Char :=
  Nat.toDigits 10 (n / 10 ^ scale) ++ if scale = 0 then [] else '.' :: lastDigits scale n

/-- All digits are written, and no exponent. -/
def text (d : Decimal) : List Char :=
  (if d.mantissa < 0 then ['-'] else []) ++ unsignedText d.mantissa.natAbs d.scale

/-- Zeros at the end of the fraction are dropped. -/
def trim : ℤ → ℕ → Decimal
  | m, 0 => ⟨m, 0⟩
  | m, s + 1 => if m % 10 = 0 then trim (m / 10) s else ⟨m, s + 1⟩

def trimScale (d : Decimal) : Decimal := trim d.mantissa d.scale

/-- The fraction does not end with a zero. -/
def Trimmed (d : Decimal) : Prop := d.scale = 0 ∨ d.mantissa % 10 ≠ 0

theorem unsignedText_head (n s : ℕ) :
    ∃ c l, unsignedText n s = c :: l ∧ c.isDigit = true := by
  cases hd : Nat.toDigits 10 (n / 10 ^ s) with
  | nil => exact absurd hd toDigits_ne_nil
  | cons c l => exact ⟨c, _, by rw [unsignedText, hd]; rfl, (hd ▸ Digits.toDigits _).cons.1⟩

private theorem fraction_head (n s : ℕ) :
    ∀ c ∈ (if s = 0 then [] else '.' :: lastDigits s n).head?, c.isDigit = false := by
  intro c hc
  split at hc
  · cases hc
  · cases hc
    rfl

theorem unsignedText_inj {n n' s s' : ℕ} (h : unsignedText n s = unsignedText n' s') :
    n = n' ∧ s = s' := by
  obtain ⟨hwhole, hfraction⟩ := span_inj (Digits.toDigits _) (Digits.toDigits _)
    (fraction_head n s) (fraction_head n' s') h
  have hdiv : n / 10 ^ s = n' / 10 ^ s' := by
    rw [← digitsValue_toDigits (n / 10 ^ s), hwhole, digitsValue_toDigits]
  have hs : s = s' := by
    split at hfraction <;> split at hfraction
    · omega
    · cases hfraction
    · cases hfraction
    · have hlen := congrArg List.length hfraction
      simpa [length_lastDigits] using hlen
  subst hs
  refine ⟨?_, rfl⟩
  have hmod : n % 10 ^ s = n' % 10 ^ s := by
    split at hfraction
    · next h0 => rw [h0, pow_zero, mod_one, mod_one]
    · have htail := congrArg digitsValue (tail_eq_of_cons_eq hfraction)
      rwa [digitsValue_lastDigits, digitsValue_lastDigits] at htail
  rw [← div_add_mod n (10 ^ s), hdiv, hmod, div_add_mod]

/-- A decimal can be read back from its text. -/
theorem text_injective : Function.Injective text := by
  rintro ⟨m, s⟩ ⟨m', s'⟩ h
  have hparts : unsignedText m.natAbs s = unsignedText m'.natAbs s' ∧ (m < 0 ↔ m' < 0) := by
    -- A digit string does not start with the sign.
    obtain ⟨c, l, hcl, hc⟩ := unsignedText_head m.natAbs s
    obtain ⟨c', l', hcl', hc'⟩ := unsignedText_head m'.natAbs s'
    have hdash := ne_of_isDigit hc (d := '-') rfl
    have hdash' := ne_of_isDigit hc' (d := '-') rfl
    simp only [text] at h
    by_cases hm : m < 0 <;> by_cases hm' : m' < 0
    · rw [if_pos hm, if_pos hm'] at h
      exact ⟨append_cancel_left h, by simp only [hm, hm']⟩
    · rw [if_pos hm, if_neg hm', hcl'] at h
      exact absurd (List.cons.inj h).1.symm hdash'
    · rw [if_neg hm, if_pos hm', hcl] at h
      exact absurd (List.cons.inj h).1 hdash
    · rw [if_neg hm, if_neg hm'] at h
      exact ⟨h, by simp only [hm, hm']⟩
  obtain ⟨habs, hs⟩ := unsignedText_inj hparts.1
  have hm : m = m' := by
    have := hparts.2
    omega
  rw [hm, hs]

theorem trim_value (m : ℤ) (s : ℕ) : (trim m s).value = m / 10 ^ s := by
  induction s generalizing m with
  | zero => rfl
  | succ s ih =>
    rw [trim]
    split
    · next h =>
        have hm : (m : ℚ) = 10 * ((m / 10 : ℤ) : ℚ) := by
          rw [← Int.cast_ofNat, ← Int.cast_mul]
          congr 1
          omega
        rw [ih, hm, pow_succ]
        field_simp
    · rfl

theorem trimScale_value (d : Decimal) : d.trimScale.value = d.value := trim_value _ _

theorem trimScale_trimmed (d : Decimal) : d.trimScale.Trimmed := by
  obtain ⟨m, s⟩ := d
  show (trim m s).Trimmed
  induction s generalizing m with
  | zero => exact .inl rfl
  | succ s ih =>
    rw [trim]
    split
    · exact ih _
    · next h => exact .inr h

/-- Without trailing zeros the value determines the decimal. -/
theorem Trimmed.eq {d d' : Decimal} (h : d.Trimmed) (h' : d'.Trimmed) (hv : d.value = d'.value) :
    d = d' := by
  obtain ⟨m, s⟩ := d
  obtain ⟨m', s'⟩ := d'
  wlog hle : s ≤ s' generalizing m s m' s'
  · exact (this m' s' h' m s h hv.symm (by omega)).symm
  obtain ⟨k, rfl⟩ := Nat.exists_eq_add_of_le hle
  have hm : m' = m * 10 ^ k := by
    have hq : (m' : ℚ) = (m : ℚ) * 10 ^ k := by
      simp only [value, pow_add] at hv
      field_simp at hv
      exact hv.symm
    exact_mod_cast hq
  cases k with
  | zero => simp [hm]
  | succ k =>
    rcases h' with h' | h'
    · exact absurd h' (by simp)
    · exact absurd (by rw [hm, pow_succ, ← mul_assoc, Int.mul_emod_left]) h'

theorem trimScale_eq_iff {d d' : Decimal} : d.trimScale = d'.trimScale ↔ d.value = d'.value := by
  constructor
  · intro h
    rw [← trimScale_value d, h, trimScale_value]
  · intro h
    exact (trimScale_trimmed d).eq (trimScale_trimmed d') (by
      rw [trimScale_value, trimScale_value, h])

theorem trim_neg (m : ℤ) (s : ℕ) : trim (-m) s = ⟨-(trim m s).mantissa, (trim m s).scale⟩ := by
  induction s generalizing m with
  | zero => rfl
  | succ s ih =>
    rw [trim, trim]
    by_cases h : m % 10 = 0
    · have hdiv : -m / 10 = -(m / 10) := by omega
      rw [if_pos h, if_pos (by omega), hdiv, ih]
    · rw [if_neg h, if_neg (by omega)]

theorem trim_nonneg {m : ℤ} (h : 0 ≤ m) (s : ℕ) : 0 ≤ (trim m s).mantissa := by
  induction s generalizing m with
  | zero => exact h
  | succ s ih =>
    rw [trim]
    split
    · exact ih (by omega)
    · exact h

theorem text_zero : text ⟨0, 0⟩ = ['0'] := rfl

/-- Only the number zero is written `0`. -/
theorem trimScale_text_eq_zero {d : Decimal} : d.trimScale.text = ['0'] ↔ d.mantissa = 0 := by
  rw [← text_zero, text_injective.eq_iff]
  have hzero : (⟨0, 0⟩ : Decimal) = (⟨0, 0⟩ : Decimal).trimScale := rfl
  rw [hzero, trimScale_eq_iff, value, value]
  simp

/-- The sign is written in front, and zero has none. -/
theorem trim_neg_text (n s : ℕ) : (trim (-(n : ℤ)) s).text =
    if (trim n s).text = ['0'] then ['0'] else '-' :: (trim n s).text := by
  have hiff : (trim n s).text = ['0'] ↔ (n : ℤ) = 0 := trimScale_text_eq_zero (d := ⟨n, s⟩)
  split
  · next h => rw [hiff.1 h, neg_zero, ← hiff.1 h, h]
  · next h =>
      have hne : (trim n s).mantissa ≠ 0 := by
        intro hzero
        refine h (hiff.2 ?_)
        have hv := trim_value (n : ℤ) s
        rw [value, hzero, Int.cast_zero, zero_div, eq_comm, div_eq_zero_iff] at hv
        exact_mod_cast hv.resolve_right (by simp)
      have hle := trim_nonneg (Int.natCast_nonneg n) s
      rw [trim_neg, text, text, if_pos (by simp only; omega), if_neg (by omega)]
      simp

theorem trim_whole (n : ℕ) : (trim (n : ℤ) 0).text = Nat.toDigits 10 n := by
  rw [trim, text, if_neg (Int.natCast_nonneg n).not_gt, nil_append, unsignedText,
    Int.natAbs_natCast, pow_zero, Nat.div_one, if_pos rfl, append_nil]

/-- Zeros at the end of the digits of the fraction are those that trimming drops. -/
theorem trim_text {l m : List Char} (hm : Digits m) :
    (trim (digitsValue (l ++ m)) m.length).text = Nat.toDigits 10 (digitsValue l) ++
      if m.rdropWhile (· == '0') = [] then [] else '.' :: m.rdropWhile (· == '0') := by
  induction m using List.reverseRecOn with
  | nil => simp [trim, text, unsignedText]
  | append_singleton m c ih =>
    have hc := isDigit_toNat hm.of_append.2.cons.1
    have hconcat : digitsValue (l ++ (m ++ [c])) = 10 * digitsValue (l ++ m) + (c.toNat - 48) := by
      rw [← append_assoc, digitsValue_concat]
    rw [length_append, length_singleton, trim, hconcat]
    by_cases h0 : c = '0'
    · have hz : c.toNat - 48 = 0 := by rw [h0]; rfl
      rw [if_pos (by omega), rdropWhile_concat_pos _ _ _ (by simp [h0]),
        ← ih hm.of_append.1, hz]
      congr 2
      omega
    · have hne : c.toNat ≠ 48 := fun heq => h0 (Char.toNat_inj.1 heq)
      rw [if_neg (by omega), rdropWhile_concat_neg _ _ _ (by simp [h0]), ← hconcat]
      have hlen : (m ++ [c]).length = m.length + 1 := by simp
      have hval := digitsValue_append l (m ++ [c])
      have hlt := digitsValue_lt hm
      rw [if_neg (by simp), text, if_neg (Int.natCast_nonneg _).not_gt, nil_append,
        unsignedText, if_neg (succ_ne_zero _), Int.natAbs_natCast, hval, ← hlen,
        lastDigits_digitsValue hm, Nat.mul_add_div (Nat.pow_pos (by omega)),
        div_eq_of_lt hlt, add_zero]

/-- No superfluous zero in front of the whole part or at the end of the fraction, and no sign before
zero. -/
def Plain (t : List Char) : Prop :=
  ∃ sign whole fraction : List Char,
    t = sign ++ (whole ++ if fraction = [] then [] else '.' :: fraction) ∧
    (sign = [] ∨ sign = ['-'] ∧ digitsValue (whole ++ fraction) ≠ 0) ∧
    Digits whole ∧ Digits fraction ∧ whole ≠ [] ∧ (whole.head? = some '0' → whole = ['0']) ∧
    fraction.getLast? ≠ some '0'

theorem Trimmed.text_plain {d : Decimal} (h : d.Trimmed) : Plain d.text := by
  obtain ⟨m, s⟩ := d
  have hfraction : (if s = 0 then [] else '.' :: lastDigits s m.natAbs) =
      if lastDigits s m.natAbs = [] then [] else '.' :: lastDigits s m.natAbs := by
    have hlen := length_lastDigits s m.natAbs
    by_cases hs : s = 0
    · rw [if_pos hs, if_pos (length_eq_zero_iff.1 (hlen.trans hs))]
    · rw [if_neg hs, if_neg fun hnil => hs (by rw [← hlen, hnil, length_nil])]
  refine ⟨if m < 0 then ['-'] else [], Nat.toDigits 10 (m.natAbs / 10 ^ s), lastDigits s m.natAbs,
    by rw [text, unsignedText, hfraction], ?_, .toDigits _, .lastDigits _ _, toDigits_ne_nil,
    fun hhead => by rw [toDigits_head _ hhead]; rfl, ?_⟩
  · split
    · next hm =>
        refine .inr ⟨rfl, ?_⟩
        rw [digitsValue_append, digitsValue_toDigits, digitsValue_lastDigits, length_lastDigits,
          div_add_mod]
        omega
    · exact .inl rfl
  · rcases h with h | h
    · simp only at h
      rw [h]
      simp [Polis.lastDigits]
    · cases s with
      | zero => simp [Polis.lastDigits]
      | succ s =>
        simp only at h
        rw [Polis.lastDigits, getLast?_concat, ne_eq, Option.some.injEq]
        intro hzero
        have htoNat := congrArg Char.toNat hzero
        rw [toNat_digitChar_of_lt_ten (by omega)] at htoNat
        have : (48 : ℕ) = '0'.toNat := rfl
        omega

end Decimal

end Polis
