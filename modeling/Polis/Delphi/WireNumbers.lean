import Polis.Delphi.Wire

/-!
# Numbers as JavaScript writes them

The layout of `js_number` is the one that ECMAScript prescribes, whatever the digits and the exponent are;
the text denotes the decimal that the digits do, and is read back as the double it was written for.

Reference: `queue-rs/polis-contracts/src/wire.rs`.
-/

namespace Polis.Wire

open Binary64 JsonText List Option Nat

variable {digits : List Char} {n e : ℤ} {x : JsNumber}

/-! ## The prescribed layout -/

/-- `Number::toString` of ECMAScript, for the decimal `0.digits` times ten to `n`. -/
def numberToString (digits : List Char) (n : ℤ) : List Char :=
  if -5 ≤ n ∧ n ≤ 21 then
    if digits.length ≤ n then digits ++ List.replicate (n - digits.length).toNat '0'
    else if 0 < n then digits.take n.toNat ++ '.' :: digits.drop n.toNat
    else '0' :: '.' :: (List.replicate (-n).toNat '0' ++ digits)
  else
    let sign := if n < 0 then '-' else '+'
    let exponent := 'e' :: sign :: Nat.toDigits 10 (n - 1).natAbs
    if digits.length = 1 then digits ++ exponent
    else digits.take 1 ++ '.' :: digits.drop 1 ++ exponent

/-! ## The scientific notation read -/

theorem toString_toList (z : ℤ) :
    (toString z).toList = (if z < 0 then ['-'] else []) ++ Nat.toDigits 10 z.natAbs := by
  cases z with
  | ofNat | negSucc => simp [toString, Int.repr, Nat.repr]

theorem head?_ne_of_digits {c : Char} (hd : Digits digits) (hc : c.isDigit = false) :
    digits.head? ≠ some c := by
  intro h
  have := hd c (mem_of_head? h)
  rw [hc] at this
  cases this

theorem parseI64_toString (hlow : -2 ^ 63 ≤ e) (hhigh : e < 2 ^ 63) :
    parseI64 (toString e).toList = some e := by
  have hdigits : Digits (Nat.toDigits 10 e.natAbs) := .toDigits _
  have hall : (Nat.toDigits 10 e.natAbs).all Char.isDigit = true := all_eq_true.2 hdigits
  rw [toString_toList]
  unfold parseI64
  by_cases h : e < 0
  · simp only [if_pos h, singleton_append, head?_cons, true_or, if_true, tail_cons,
      digitsValue_toDigits]
    rw [if_pos ⟨toDigits_ne_nil, hall, by omega, by omega⟩]
    congr 1
    omega
  · have hdash := head?_ne_of_digits hdigits (c := '-') rfl
    have hplus := head?_ne_of_digits hdigits (c := '+') rfl
    simp only [if_neg h, nil_append, if_neg hdash, if_neg (not_or.2 ⟨hdash, hplus⟩),
      digitsValue_toDigits]
    rw [if_pos ⟨toDigits_ne_nil, hall, by omega, by omega⟩]
    congr 1
    omega

theorem span_eq {α : Type*} {p : α → Bool} {l r : List α} (hl : ∀ a ∈ l, p a = true)
    (hr : ∀ a ∈ r.head?, p a = false) : (l ++ r).takeWhile p = l ∧ (l ++ r).dropWhile p = r := by
  rw [takeWhile_append_of_pos hl, dropWhile_append_of_pos hl]
  cases r with
  | nil => simp
  | cons a r => simp [hr a rfl]

theorem splitOnce_eq {c : Char} {l r : List Char} (hl : c ∉ l) :
    splitOnce c (l ++ c :: r) = some (l, r) := by
  have hspan := span_eq (p := (· ≠ c)) (l := l) (r := c :: r)
    (fun a ha => decide_eq_true (ne_of_mem_of_not_mem ha hl)) (fun a ha => by cases ha; simp)
  rw [splitOnce, if_pos (by simp), hspan.1, hspan.2, tail_cons]

/-- The mantissa of `{:e}`. -/
private def mantissa (digits : List Char) : List Char :=
  digits.take 1 ++ if digits.drop 1 = [] then [] else '.' :: digits.drop 1

private theorem not_mem_mantissa (hd : Digits digits) : 'e' ∉ mantissa digits := by
  intro h
  rcases mem_append.1 h with h | h
  · exact absurd (hd _ (mem_of_mem_take h)) (by decide)
  · split at h
    · cases h
    · rcases mem_cons.1 h with h | h
      · cases h
      · exact absurd (hd _ (mem_of_mem_drop h)) (by decide)

private theorem filter_mantissa (hd : Digits digits) : (mantissa digits).filter Char.isDigit = digits := by
  have hself : ∀ l : List Char, (∀ c ∈ l, c ∈ digits) → l.filter Char.isDigit = l :=
    fun l hl => filter_eq_self.2 fun c hc => hd c (hl c hc)
  have hsplit := take_append_drop 1 digits
  rw [mantissa, filter_append, hself _ fun c hc => mem_of_mem_take hc]
  split
  · next h =>
    rw [filter_nil, ← h]
    exact hsplit
  · rw [filter_cons_of_neg (by decide), hself _ fun c hc => mem_of_mem_drop hc]
    exact hsplit

/-- The layout is the prescribed one for every digit string and every exponent that is parsed. -/
theorem layout_lowerExp (hd : Digits digits) (hne : digits ≠ []) (hlow : -2 ^ 63 ≤ e) (hhigh : e < 2 ^ 63) :
    layout (lowerExp digits e) = numberToString digits (e + 1) := by
  have hsplit : splitOnce 'e' (lowerExp digits e) = some (mantissa digits, (toString e).toList) :=
    splitOnce_eq (not_mem_mantissa hd)
  have hlen : 0 < digits.length := length_pos_iff.2 hne
  have hdrop : digits.drop 1 = [] ↔ digits.length = 1 := by
    rw [drop_eq_nil_iff]
    omega
  unfold layout numberToString
  simp only [hsplit, getD_some, filter_mantissa hd, parseI64_toString hlow hhigh]
  by_cases h1 : (digits.length : ℤ) ≤ e + 1 ∧ e + 1 ≤ 21
  · rw [if_pos h1, if_pos (by omega), if_pos h1.1]
  · rw [if_neg h1]
    by_cases h2 : 0 < e + 1 ∧ e + 1 ≤ 21
    · rw [if_pos h2, if_pos (by omega), if_neg (by omega), if_pos h2.1]
    · rw [if_neg h2]
      by_cases h3 : -6 < e + 1 ∧ e + 1 ≤ 0
      · rw [if_pos h3, if_pos (by omega), if_neg (by omega), if_neg (by omega)]
      · have hout : ¬(-5 ≤ e + 1 ∧ e + 1 ≤ 21) := by omega
        rw [if_neg h3, if_neg hout, toString_eq_repr, Nat.repr, String.toList_ofList]
        have hsign : (if e + 1 - 1 < 0 then '-' else '+') = if e + 1 < 0 then '-' else '+' := by
          by_cases he : e + 1 < 0
          · rw [if_pos he, if_pos (by omega)]
          · rw [if_neg he, if_neg (by omega)]
        rw [hsign]
        by_cases hk : digits.length = 1
        · have htake : digits.take 1 = digits := take_of_length_le hk.le
          rw [if_pos hk, if_pos (hdrop.2 hk), htake, append_nil]
        · rw [if_neg hk, if_neg fun h => hk (hdrop.1 h)]

/-! ## The number that is denoted -/

/-- A numeral is read as the parts it is put together from. -/
theorem readNumber_parts (neg : Bool) (whole frac : List Char) {ex : List Char} {exp : Option ℤ}
    (hwhole : Digits whole) (hne : whole ≠ []) (hzero : whole.head? = some '0' → whole = ['0']) (hfrac : Digits frac)
    (hexp : readExp ex = some exp) (hhead : ∀ c ∈ ex.head?, c = 'e') :
    readNumber ((if neg then ['-'] else []) ++ (whole ++ ((if frac = [] then [] else '.' :: frac) ++ ex))) =
      some ⟨neg, whole, frac, exp⟩ := by
  have hexHead : ∀ c ∈ ex.head?, c.isDigit = false := fun c hc => by
    rw [hhead c hc]
    rfl
  have hrestHead : ∀ c ∈ ((if frac = [] then [] else '.' :: frac) ++ ex).head?, c.isDigit = false := by
    intro c hc
    split at hc
    · exact hexHead c hc
    · cases hc
      rfl
  obtain ⟨htake, hdrop⟩ := span_eq hwhole hrestHead
  have hreadFrac : readFrac ((if frac = [] then [] else '.' :: frac) ++ ex) = some (frac, ex) := by
    by_cases hnil : frac = []
    · rw [if_pos hnil, nil_append, hnil]
      cases ex with
      | nil => rfl
      | cons c ex =>
        cases hhead c rfl
        rfl
    · obtain ⟨htakeF, hdropF⟩ := span_eq hfrac hexHead
      rw [if_neg hnil, cons_append, readFrac, htakeF, hdropF, if_neg hnil]
  have hunsigned : ∀ r : List Char, (whole ++ r).head? ≠ some '-' := by
    intro r h
    obtain ⟨c, w, rfl⟩ := exists_cons_of_ne_nil hne
    have := hwhole c mem_cons_self
    rw [cons_append, head?_cons, Option.some.injEq] at h
    rw [h] at this
    cases this
  have hguard : ¬(whole = [] ∨ whole.head? = some '0' ∧ whole ≠ ['0']) := by
    rintro (h | ⟨h, h'⟩)
    · exact hne h
    · exact h' (hzero h)
  unfold readNumber
  cases neg
  · simp only [Bool.false_eq_true, if_false, List.nil_append, hunsigned, decide_false, htake, hdrop,
      if_neg hguard, hreadFrac, hexp, bind_eq_bind, bind_some, Option.pure_def]
  · simp only [if_true, List.singleton_append, List.head?_cons, decide_true, List.tail_cons, htake,
      hdrop, if_neg hguard, hreadFrac, hexp, Option.bind_eq_bind, Option.bind_some, Option.pure_def]

theorem readExp_nil : readExp [] = some none := rfl

theorem readExp_e (z : ℤ) :
    readExp ('e' :: (if z < 0 then '-' else '+') :: Nat.toDigits 10 z.natAbs) = some (some z) := by
  have hall : (Nat.toDigits 10 z.natAbs).all Char.isDigit = true := all_eq_true.2 (Digits.toDigits _)
  unfold readExp
  by_cases h : z < 0
  · simp only [if_pos h, head?_cons, true_or, if_true, tail_cons, digitsValue_toDigits]
    rw [if_pos ⟨trivial, toDigits_ne_nil, hall⟩]
    congr 2
    omega
  · simp only [if_neg h, head?_cons, or_true, if_true, tail_cons, digitsValue_toDigits]
    rw [if_pos ⟨.inl trivial, toDigits_ne_nil, hall⟩]
    simp only [Option.some.injEq, Char.reduceEq, if_false]
    omega

/-- The digits, with the place of the last of them. -/
def Denotes (N : Number) (neg : Bool) (digits : List Char) (n : ℤ) : Prop :=
  N.value = (if neg then -1 else 1) * (digitsValue digits * 10 ^ (n - digits.length))

/-- The text denotes the decimal whose digits it was given. -/
theorem readNumber_numberToString (neg : Bool) (hd : Digits digits) (hne : digits ≠ [])
    (hhead : digits.head? ≠ some '0') (n : ℤ) :
    ∃ N, readNumber ((if neg then ['-'] else []) ++ numberToString digits n) = some N ∧
      Denotes N neg digits n := by
  have hlen : 0 < digits.length := length_pos_iff.2 hne
  have htake : ∀ m, 0 < m → (digits.take m).head? ≠ some '0' := by
    intro m hm h
    rw [head?_take, if_neg (by omega)] at h
    exact hhead h
  have htakene : ∀ m, 0 < m → digits.take m ≠ [] := by
    intro m hm h
    rw [take_eq_nil_iff] at h
    exact h.elim (by omega) hne
  have hdtake : ∀ m, Digits (digits.take m) := fun m c hc => hd c (mem_of_mem_take hc)
  have hddrop : ∀ m, Digits (digits.drop m) := fun m c hc => hd c (mem_of_mem_drop hc)
  unfold numberToString
  by_cases hrange : -5 ≤ n ∧ n ≤ 21
  · rw [if_pos hrange]
    by_cases hk : (digits.length : ℤ) ≤ n
    · -- digits and zeros
      rw [if_pos hk]
      have hread := readNumber_parts neg (digits ++ List.replicate (n - digits.length).toNat '0') []
        (hd.append (.zeros _)) (by simp [hne])
        (fun h => absurd (by rwa [head?_append_of_ne_nil _ hne] at h) hhead)
        (fun _ hc => nomatch hc) readExp_nil (fun _ hc => nomatch hc)
      rw [if_pos rfl, append_nil, append_nil] at hread
      refine ⟨_, hread, ?_⟩
      obtain ⟨m, hm⟩ := Int.eq_ofNat_of_zero_le (sub_nonneg.2 hk)
      simp only [Denotes, Number.value, append_nil, digitsValue_append_zeros, length_nil,
        pow_zero, div_one, getD_none, zpow_zero, mul_one, hm, Int.toNat_natCast, zpow_natCast]
      push_cast
      rfl
    · rw [if_neg hk]
      have hexact : ∀ m : ℕ, n - digits.length = -(m : ℤ) → ∀ whole frac : List Char,
          digitsValue (whole ++ frac) = digitsValue digits → frac.length = m →
          Denotes ⟨neg, whole, frac, none⟩ neg digits n := by
        intro m hm whole frac hval hfrac
        simp only [Denotes, Number.value, getD_none, zpow_zero, mul_one, hval, hfrac, hm,
          zpow_neg, zpow_natCast, div_eq_mul_inv]
      by_cases hpos : 0 < n
      · -- the point among the digits
        rw [if_pos hpos]
        have hnpos : 0 < n.toNat := by omega
        have hread := readNumber_parts neg (digits.take n.toNat) (digits.drop n.toNat) (hdtake _) (htakene _ hnpos)
          (fun h => absurd h (htake _ hnpos)) (hddrop _) readExp_nil (fun _ hc => nomatch hc)
        have hdrop : digits.drop n.toNat ≠ [] := by
          rw [ne_eq, drop_eq_nil_iff]
          omega
        rw [if_neg hdrop, append_nil] at hread
        refine ⟨_, hread, hexact (digits.length - n.toNat) (by omega) _ _ ?_ (length_drop ..)⟩
        rw [take_append_drop]
      · -- zeros after the point
        rw [if_neg hpos]
        have hread := readNumber_parts neg ['0'] (List.replicate (-n).toNat '0' ++ digits) (by decide)
          (by simp) (fun _ => rfl) ((Digits.zeros _).append hd) readExp_nil (fun _ hc => nomatch hc)
        have hfrac : List.replicate (-n).toNat '0' ++ digits ≠ [] := by simp [hne]
        rw [if_neg hfrac, append_nil] at hread
        refine ⟨_, hread, hexact ((-n).toNat + digits.length) (by omega) _ _ ?_ (by simp)⟩
        rw [singleton_append]
        have hzeros := digitsValue_zeros_append ((-n).toNat + 1) digits
        rwa [replicate_succ, cons_append] at hzeros
  · rw [if_neg hrange]
    have hsign : (if n < 0 then '-' else '+') = if n - 1 < 0 then '-' else '+' := by
      by_cases h : n < 0
      · rw [if_pos h, if_pos (by omega)]
      · rw [if_neg h, if_neg (by omega)]
    have hexp := readExp_e (n - 1)
    have hexact : ∀ whole frac : List Char, digitsValue (whole ++ frac) = digitsValue digits →
        frac.length = digits.length - 1 → Denotes ⟨neg, whole, frac, some (n - 1)⟩ neg digits n := by
      intro whole frac hval hfrac
      have hsplit : n - digits.length = -((digits.length - 1 : ℕ) : ℤ) + (n - 1) := by omega
      simp only [Denotes, Number.value, getD_some, hval, hfrac]
      rw [hsplit, ten_zpow_add, zpow_neg, zpow_natCast, div_eq_mul_inv]
      ring
    dsimp only
    rw [hsign]
    by_cases hk : digits.length = 1
    · rw [if_pos hk]
      have hread := readNumber_parts neg digits [] hd hne
        (fun h => absurd h hhead) (fun _ hc => nomatch hc) hexp (fun c hc => by cases hc; rfl)
      rw [if_pos rfl, nil_append] at hread
      exact ⟨_, hread, hexact _ _ (by rw [append_nil]) (by simp [hk])⟩
    · rw [if_neg hk]
      have hdrop : digits.drop 1 ≠ [] := by
        rw [ne_eq, drop_eq_nil_iff]
        omega
      have hread := readNumber_parts neg (digits.take 1) (digits.drop 1)
        (hdtake 1) (htakene 1 one_pos) (fun h => absurd h (htake 1 one_pos)) (hddrop 1) hexp
        (fun c hc => by cases hc; rfl)
      rw [if_neg hdrop, ← append_assoc (digits.take 1)] at hread
      exact ⟨_, hread, hexact _ _ (by rw [take_append_drop]) (length_drop ..)⟩

/-! ## The digits of a double -/

section Digits

variable {s : ℕ} {j : ℤ}

theorem toDigits_head_ne (hs : 0 < s) : (Nat.toDigits 10 s).head? ≠ some '0' :=
  fun h => hs.ne' (toDigits_head s h)

theorem length_toDigits_pos (s : ℕ) : 0 < (Nat.toDigits 10 s).length := Nat.length_toDigits_pos

/-- The exponent of the first digit is that of a double. -/
theorem exponent_bounds {q : ℚ} (hq : 0 < q) (hs : 0 < s) (h : RoundsTo q s j) :
    -2 ^ 63 ≤ j + ((Nat.toDigits 10 s).length - 1) ∧ j + ((Nat.toDigits 10 s).length - 1) < 2 ^ 63 := by
  obtain ⟨hlow, hhigh⟩ := bounds_of_nearest hq h
  have hlen := length_toDigits_pos s
  obtain ⟨k, hk⟩ : ∃ k, (Nat.toDigits 10 s).length = k + 1 := ⟨_, (Nat.sub_add_cancel hlen).symm⟩
  have hlt : s < 10 ^ (k + 1) := (length_toDigits_le_iff (by norm_num) (by omega)).1 hk.le
  have hge : 10 ^ k ≤ s := by
    rcases k.eq_zero_or_pos with rfl | hpos
    · exact hs
    · by_contra hlt
      have := (length_toDigits_le_iff (by norm_num) hpos).2 (not_le.1 hlt)
      omega
  rw [hk]
  push_cast
  constructor
  · by_contra hsmall
    have hle : (s : ℚ) * 10 ^ j ≤ 10 ^ (-1076 : ℤ) := by
      calc (s : ℚ) * 10 ^ j ≤ 10 ^ (k + 1) * 10 ^ j :=
            mul_le_mul_of_nonneg_right (by exact_mod_cast hlt.le) (ten_zpow_pos j).le
        _ = 10 ^ (((k + 1 : ℕ) : ℤ) + j) := by rw [ten_zpow_add, zpow_natCast]
        _ ≤ _ := zpow_le_zpow_right₀ (by norm_num) (by omega)
    have htwo : (10 : ℚ) ^ (-1076 : ℤ) ≤ 2 ^ (-1076 : ℤ) := by
      rw [zpow_neg, zpow_neg]
      exact inv_anti₀ (two_zpow_pos _) (zpow_le_zpow_left₀ (by norm_num) (by norm_num) (by norm_num))
    exact absurd hlow (not_lt.2 (hle.trans htwo))
  · by_contra hbig
    have hle : (10 : ℚ) ^ ((1024 : ℕ) : ℤ) ≤ s * 10 ^ j := by
      calc (10 : ℚ) ^ ((1024 : ℕ) : ℤ) ≤ 10 ^ ((k : ℤ) + j) := zpow_le_zpow_right₀ (by norm_num) (by omega)
        _ = 10 ^ k * 10 ^ j := by rw [ten_zpow_add, zpow_natCast]
        _ ≤ s * 10 ^ j := mul_le_mul_of_nonneg_right (by exact_mod_cast hge) (ten_zpow_pos j).le
    have htwo : (2 : ℚ) ^ 1024 ≤ 10 ^ ((1024 : ℕ) : ℤ) := by
      rw [zpow_natCast]
      exact pow_le_pow_left₀ (by norm_num) (by norm_num) 1024
    exact absurd hhigh (not_lt.2 (htwo.trans hle))

/-- Zeros at the end of a number follow its other digits. -/
theorem toDigits_mul_pow (hs : 0 < s) (d : ℕ) :
    Nat.toDigits 10 (s * 10 ^ d) = Nat.toDigits 10 s ++ List.replicate d '0' := by
  have hval : digitsValue (Nat.toDigits 10 s ++ List.replicate d '0') = s * 10 ^ d := by
    rw [digitsValue_append_zeros, digitsValue_toDigits]
  have hdigits : Digits (Nat.toDigits 10 s ++ List.replicate d '0') := (Digits.toDigits s).append (.zeros d)
  have hhead := toDigits_head_ne hs
  cases hl : Nat.toDigits 10 s with
  | nil => exact absurd hl toDigits_ne_nil
  | cons c l =>
    rw [hl] at hval hdigits hhead
    rw [← hval]
    exact toDigits_digitsValue hdigits fun hc => hhead (by rw [hc]; rfl)

/-- The text of a positive number with its digits. -/
def textOf (s : ℕ) (j : ℤ) : List Char :=
  numberToString (Nat.toDigits 10 s) ((Nat.toDigits 10 s).length + j)

theorem readNumber_textOf (neg : Bool) (hs : 0 < s) (j : ℤ) :
    ∃ N, readNumber ((if neg then ['-'] else []) ++ textOf s j) = some N ∧
      N.value = (if neg then -1 else 1) * (s * 10 ^ j) := by
  obtain ⟨N, hread, hval⟩ := readNumber_numberToString neg (Digits.toDigits s) toDigits_ne_nil
    (toDigits_head_ne hs) ((Nat.toDigits 10 s).length + j)
  refine ⟨N, hread, ?_⟩
  rw [hval, digitsValue_toDigits, add_sub_cancel_left]

/-- The text of a whole number up to 2^53 is its digits. -/
theorem textOf_natCast {n : ℕ} (hn : 0 < n) (hle : n ≤ 2 ^ 53) (h : Shortest n s j) :
    textOf s j = Nat.toDigits 10 n := by
  obtain ⟨d, rfl, hval⟩ := h.exists_natCast hn hle
  have hdigits := toDigits_mul_pow h.pos d
  rw [← hval] at hdigits
  have hlen : (Nat.toDigits 10 s).length + d ≤ 16 := by
    have h16 : (Nat.toDigits 10 n).length ≤ 16 :=
      (length_toDigits_le_iff (by norm_num) (by norm_num)).2 (by omega)
    rwa [hdigits, length_append, length_replicate] at h16
  have hrange : -5 ≤ ((Nat.toDigits 10 s).length : ℤ) + d ∧ ((Nat.toDigits 10 s).length : ℤ) + d ≤ 21 := by
    omega
  have hzeros : (((Nat.toDigits 10 s).length : ℤ) + d - (Nat.toDigits 10 s).length).toNat = d := by
    omega
  rw [textOf, numberToString, if_pos hrange, if_pos (by omega), hzeros, hdigits]

end Digits

theorem JsNumber.shortest_spec (x : JsNumber) (h : 0 < x.value) :
    Shortest x.value (x.shortest h).1 (x.shortest h).2 :=
  Binary64.shortest_spec x.isDouble h _

theorem JsNumber.layout_scientific (x : JsNumber) (h : 0 < x.value) :
    layout (x.scientific h) = textOf (x.shortest h).1 (x.shortest h).2 := by
  have hspec := x.shortest_spec h
  obtain ⟨hlow, hhigh⟩ := exponent_bounds h hspec.pos hspec.rounds
  rw [scientific, layout_lowerExp (.toDigits _) toDigits_ne_nil hlow hhigh, textOf]
  congr 1
  omega

/-- `js_number` writes the sign and the prescribed text of the shortest digits. -/
theorem js_number_spec (x : JsNumber) (h : x.value ≠ 0) : ∃ s j, Shortest |x.value| s j ∧
    js_number x = (if x.value < 0 then ['-'] else []) ++ textOf s j := by
  unfold js_number
  rcases h.lt_or_gt with hneg | hpos
  · have hpos := JsNumber.neg_pos hneg
    refine ⟨(x.neg.shortest hpos).1, (x.neg.shortest hpos).2, ?_, ?_⟩
    · rw [abs_of_neg hneg]
      exact x.neg.shortest_spec hpos
    · rw [dif_neg hneg.not_gt, dif_pos hneg, if_pos hneg, x.neg.layout_scientific]
      rfl
  · refine ⟨(x.shortest hpos).1, (x.shortest hpos).2, ?_, ?_⟩
    · rw [abs_of_pos hpos]
      exact x.shortest_spec hpos
    · rw [dif_pos hpos, if_neg hpos.not_gt, x.layout_scientific]
      rfl

theorem js_number_zero (x : JsNumber) (h : x.value = 0) : js_number x = ['0'] := by
  rw [js_number, dif_neg (by rw [h]; exact lt_irrefl 0), dif_neg (by rw [h]; exact lt_irrefl 0)]

/-- The integer fast path writes what `js_number` does. -/
theorem fastPath (x : JsNumber) (hden : x.value.den = 1) (hle : |x.value| ≤ maxSafeInteger) :
    (toString x.value.num).toList = js_number x := by
  have hval : x.value = x.value.num := (Rat.den_eq_one_iff _).1 hden |>.symm
  rw [toString_toList]
  rcases eq_or_ne x.value 0 with h0 | h0
  · rw [js_number_zero x h0, h0]
    rfl
  · obtain ⟨s, j, hspec, htext⟩ := js_number_spec x h0
    have habs : |x.value| = (x.value.num.natAbs : ℚ) := by
      conv_lhs => rw [hval]
      rw [cast_natAbs, Int.cast_abs]
    have hnum : x.value.num ≠ 0 := Rat.num_ne_zero.2 h0
    rw [habs] at hspec hle
    have hle' : x.value.num.natAbs ≤ 2 ^ 53 := by
      unfold maxSafeInteger at hle
      exact_mod_cast hle
    rw [htext, textOf_natCast (Int.natAbs_pos.2 hnum) hle' hspec]
    simp only [Rat.num_neg]

theorem encodeNumber_eq (x : JsNumber) : encodeNumber x = js_number x := by
  unfold encodeNumber
  split
  · next h => exact fastPath x h.1 h.2
  · rfl

/-! ## Numbers read back -/

/-- The number that is written for a double. -/
def spell (x : JsNumber) : Number := (readNumber (encodeNumber x)).getD ⟨false, [], [], none⟩

theorem nearest_abs {x : JsNumber} {q : ℚ} (h : nearest q = some |x.value|) :
    nearest ((if x.value < 0 then -1 else 1) * q) = some x.value := by
  split
  · next hneg => rw [neg_one_mul, nearest_neg, h, map_some, abs_of_neg hneg, neg_neg]
  · next hpos => rw [one_mul, h, abs_of_nonneg (not_lt.1 hpos)]

theorem readNumber_encodeNumber (x : JsNumber) :
    ∃ N, readNumber (encodeNumber x) = some N ∧ nearest N.value = some x.value := by
  rw [encodeNumber_eq]
  rcases eq_or_ne x.value 0 with h0 | h0
  · refine ⟨⟨false, ['0'], [], none⟩, by rw [js_number_zero x h0]; rfl, ?_⟩
    have hzero : Number.value ⟨false, ['0'], [], none⟩ = 0 := by
      simp [Number.value, digitsValue, ofDigitChars_cons]
    rw [hzero, ← h0]
    exact x.isDouble.nearest
  · obtain ⟨s, j, hspec, htext⟩ := js_number_spec x h0
    obtain ⟨N, hread, hval⟩ := readNumber_textOf (decide (x.value < 0)) hspec.pos j
    refine ⟨N, ?_, ?_⟩
    · rw [htext, ← hread]
      simp only [decide_eq_true_eq]
    · rw [hval]
      simp only [decide_eq_true_eq]
      exact nearest_abs hspec.rounds

theorem JsNumber.new_of_nearest {q : ℚ} (h : nearest q = some x.value) : JsNumber.new q = .ok x := by
  unfold JsNumber.new
  split
  · next y hy =>
    rw [hy] at h
    exact congrArg _ (JsNumber.ext (Option.some.inj h))
  · next hy =>
    rw [hy] at h
    cases h

theorem decodeNumber_spell (x : JsNumber) : decodeNumber (spell x) = some x := by
  obtain ⟨N, hread, hnearest⟩ := readNumber_encodeNumber x
  rw [decodeNumber, spell, hread, getD_some, JsNumber.new_of_nearest hnearest]
  rfl

private theorem isPlain_of_isDigit {c : Char} (hc : c.isDigit = true) : IsPlain c := by
  have hne : ∀ d ∈ [' ', '\t', '\n', '\r', '"', '[', ']', '\x7b', '\x7d', ',', ':'], c ≠ d := by
    intro d hd
    refine ne_of_isDigit hc ?_
    revert d
    simp
  simp only [forall_mem_cons] at hne
  simp [IsPlain, isBlank, isPunct, hne]

private theorem isPlain_numberToString (hd : Digits digits) (n : ℤ) :
    ∀ c ∈ numberToString digits n, IsPlain c := by
  have hplain : ∀ {l : List Char}, Digits l → ∀ c ∈ l, IsPlain c :=
    fun hl c hc => isPlain_of_isDigit (hl c hc)
  have htake : ∀ m, ∀ c ∈ digits.take m, IsPlain c := fun m =>
    hplain fun c hc => hd c (mem_of_mem_take hc)
  have hdrop : ∀ m, ∀ c ∈ digits.drop m, IsPlain c := fun m =>
    hplain fun c hc => hd c (mem_of_mem_drop hc)
  have hpoint : IsPlain '.' := by decide
  have hexp : ∀ c ∈ 'e' :: (if n < 0 then '-' else '+') :: Nat.toDigits 10 (n - 1).natAbs, IsPlain c := by
    refine forall_mem_cons.2 ⟨by decide, forall_mem_cons.2 ⟨?_, hplain (.toDigits _)⟩⟩
    split <;> decide
  unfold numberToString
  dsimp only
  generalize 'e' :: (if n < 0 then '-' else '+') :: Nat.toDigits 10 (n - 1).natAbs = exponent at hexp ⊢
  split_ifs
  · exact forall_mem_append.2 ⟨hplain hd, hplain (.zeros _)⟩
  · exact forall_mem_append.2 ⟨htake _, forall_mem_cons.2 ⟨hpoint, hdrop _⟩⟩
  · exact forall_mem_cons.2 ⟨by decide, forall_mem_cons.2 ⟨hpoint,
      forall_mem_append.2 ⟨hplain (.zeros _), hplain hd⟩⟩⟩
  · exact forall_mem_append.2 ⟨hplain hd, hexp⟩
  · exact forall_mem_append.2
      ⟨forall_mem_append.2 ⟨htake 1, forall_mem_cons.2 ⟨hpoint, hdrop 1⟩⟩, hexp⟩

theorem isPlain_encodeNumber (x : JsNumber) : ∀ c ∈ encodeNumber x, IsPlain c := by
  rw [encodeNumber_eq]
  rcases eq_or_ne x.value 0 with h0 | h0
  · rw [js_number_zero x h0]
    exact forall_mem_singleton.2 (by decide)
  · obtain ⟨s, j, -, htext⟩ := js_number_spec x h0
    intro c hc
    rw [htext] at hc
    rcases mem_append.1 hc with hc | hc
    · split at hc
      · rw [mem_singleton.1 hc]
        decide
      · cases hc
    · exact isPlain_numberToString (Digits.toDigits s) _ c hc

theorem spelled : Spelled encodeNumber spell where
  read x := by
    obtain ⟨N, hread, -⟩ := readNumber_encodeNumber x
    rw [spell, hread, getD_some]
  plain := isPlain_encodeNumber

end Polis.Wire
