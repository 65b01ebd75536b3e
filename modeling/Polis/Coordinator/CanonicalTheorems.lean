import Polis.Coordinator.Canonical

/-!
# The two storage texts agree

The coordinator's editing of a number's text gives the text of the trimmed decimal, which is what the
database writes. Trimmed decimals of one value are one decimal, so values with the same text are the
values that are equal.
-/

namespace Polis.Coordinator

open Decimal hiding text
open List hiding all

open Json

variable {l : Literal} {t r : Text} {c : Char}
variable {p : Char → Bool}

/-! ## Taking a token apart -/

theorem splitOnce_append (ht : ∀ c ∈ t, p c = false) (hc : p c = true) :
    splitOnce p (t ++ c :: r) = some (t, r) := by
  induction t with
  | nil => rw [nil_append, splitOnce, if_pos hc]
  | cons d t ih =>
    rw [cons_append, splitOnce, ht d mem_cons_self,
      ih fun e he => ht e (mem_cons_of_mem _ he)]
    rfl

theorem splitOnce_none (ht : ∀ c ∈ t, p c = false) : splitOnce p t = none := by
  induction t with
  | nil => rfl
  | cons d t ih =>
    rw [splitOnce, ht d mem_cons_self, ih fun e he => ht e (mem_cons_of_mem _ he)]
    rfl

/-- A power of ten that fits `i32` is read. -/
theorem parseI32_text (e : Exponent) (hlo : -2 ^ 31 ≤ e.value) (hhi : e.value < 2 ^ 31) :
    parseI32 (e.signText ++ e.digits) = some e.value := by
  have hsigned : signedDigits (e.signText ++ e.digits) =
      (decide (e.sign = some true), e.digits) := by
    have hne := e.digits_ne
    have hok := e.digits_ok
    unfold Exponent.signText
    split
    · next hs =>
        rw [hs]
        cases hd : e.digits with
        | nil => exact absurd hd hne
        | cons c d =>
          rw [hd] at hok
          have hplus := ne_of_isDigit hok.cons.1 (d := '+') rfl
          have hminus := ne_of_isDigit hok.cons.1 (d := '-') rfl
          rw [nil_append]
          unfold signedDigits
          split <;> simp_all
    · next hs => rw [hs]; rfl
    · next hs => rw [hs]; rfl
  have hdigits : e.digits.all Char.isDigit = true := all_eq_true.2 e.digits_ok
  rw [parseI32, hsigned, if_pos ⟨e.digits_ne, hdigits⟩]
  simp only [decide_eq_true_eq]
  exact if_pos ⟨hlo, hhi⟩

/-! ## Writing the digits out -/

theorem stripFront_digits (ht : Digits t) (hne : t ≠ []) (hr : r = [] ∨ ∃ f, r = '.' :: f) :
    stripFront (t ++ r) = Nat.toDigits 10 (digitsValue t) ++ r := by
  induction t with
  | nil => exact absurd rfl hne
  | cons c t ih =>
    by_cases hc : c = '0'
    · subst hc
      cases t with
      | nil => rcases hr with rfl | ⟨f, rfl⟩ <;> rfl
      | cons d t =>
        have hdot := ne_of_isDigit ht.cons.2.cons.1 (d := '.') rfl
        have hval := digitsValue_zeros_append 1 (d :: t)
        rw [cons_append, cons_append, stripFront, if_neg hdot, ← cons_append,
          ih ht.cons.2 (by simp), ← hval]
        rfl
    · rw [toDigits_digitsValue ht hc, cons_append, stripFront]
      intro d f h
      exact absurd (List.cons.inj h).1 hc

private theorem rdropWhile_after_point (w f : Text) :
    (w ++ '.' :: f).rdropWhile (· == '0') = w ++ '.' :: f.rdropWhile (· == '0') := by
  induction f using List.reverseRecOn with
  | nil => rw [rdropWhile_concat_neg _ _ _ (by decide), rdropWhile_nil]
  | append_singleton f c ih =>
    rw [← cons_append, ← append_assoc]
    by_cases hc : c = '0'
    · rw [rdropWhile_concat_pos _ _ _ (by simp [hc]), ih,
        rdropWhile_concat_pos _ _ _ (by simp [hc])]
    · rw [rdropWhile_concat_neg _ _ _ (by simp [hc]),
        rdropWhile_concat_neg _ _ _ (by simp [hc]), append_assoc, cons_append]

/-- The digits that are written out are those of the trimmed decimal. -/
theorem expand_text {digits : Text} (hd : Digits digits) (hne : digits ≠ []) {scale : ℤ}
    (hlo : -2 ^ 31 < scale) : expand digits scale =
      some (trim (digitsValue digits * 10 ^ (-scale).toNat : ℕ) scale.toNat).text := by
  unfold expand
  split
  · next hle =>
      have hstrip := stripFront_digits (hd.append (.zeros (-scale).toNat)) (r := []) (by simp [hne])
        (.inl rfl)
      rw [append_nil, append_nil] at hstrip
      rw [if_neg (by omega), hstrip, digitsValue_append_zeros, Int.toNat_of_nonpos hle,
        trim_whole]
  · next hpos =>
      obtain ⟨n, rfl⟩ : ∃ n : ℕ, scale = n := ⟨scale.toNat, by omega⟩
      have hneg : (-(n : ℤ)).toNat = 0 := by omega
      simp only [Int.toNat_natCast, hneg, pow_zero, Nat.mul_one]
      generalize hp : List.replicate (n + 1 - digits.length) '0' ++ digits = padded
      have hlen : n < padded.length := by
        rw [← hp, length_append, length_replicate]
        omega
      have hpadded : Digits padded := hp ▸ (Digits.zeros _).append hd
      have hval : digitsValue padded = digitsValue digits := by rw [← hp, digitsValue_zeros_append]
      -- The point parts the digits, and the fraction is as long as the scale says.
      obtain ⟨w, f, rfl, hw, hf⟩ : ∃ w f, padded = w ++ f ∧ w.length = padded.length - n ∧
          f.length = n := ⟨_, _, (take_append_drop (padded.length - n) padded).symm,
            by rw [length_take]; omega, by rw [length_drop]; omega⟩
      rw [← hw, take_left, drop_left, rdropWhile_after_point, ← hval, ← hf,
        trim_text hpadded.of_append.2]
      have hwne : w ≠ [] := by
        rintro rfl
        rw [length_nil] at hw
        omega
      by_cases hnil : f.rdropWhile (· == '0') = []
      · have hstrip := stripFront_digits hpadded.of_append.1 hwne (r := []) (.inl rfl)
        rw [append_nil, append_nil] at hstrip
        rw [hnil, getLast?_concat, if_pos rfl, dropLast_concat, hstrip, if_pos rfl,
          append_nil]
      · have hlast : (w ++ '.' :: f.rdropWhile (· == '0')).getLast? ≠ some '.' := by
          rw [getLast?_append, getLast?_cons_of_ne_nil hnil,
            Option.or_of_isSome (getLast?_isSome.2 hnil)]
          intro h
          have hmem := (List.rdropWhile_prefix _ _).subset (mem_of_getLast? h)
          exact absurd (hpadded.of_append.2 _ hmem) (by decide)
        rw [if_neg hlast, if_neg hnil,
          stripFront_digits hpadded.of_append.1 hwne (.inr ⟨_, rfl⟩)]

/-- The power of ten and the scale that it leaves fit `i32`. -/
def Literal.ScaleFits (l : Literal) : Prop :=
  l.power < 2 ^ 31 ∧ (l.fraction.length : ℤ) < 2 ^ 31 ∧ l.scale < 2 ^ 31

private theorem wrapI32_eq {n : ℤ} (hlo : -2 ^ 31 ≤ n) (hhi : n < 2 ^ 31) : wrapI32 n = n :=
  Int.bmod_eq_of_le (by omega) (by omega)

private theorem mem_mantissa (hdigit : ∀ c : Char, c.isDigit = true → p c = false)
    (hdash : p '-' = false) (hdot : p '.' = false) : ∀ c ∈ l.mantissa, p c = false := by
  intro c hc
  rcases mem_append.1 hc with hc | hc
  · split at hc
    · rw [mem_singleton.1 hc, hdash]
    · cases hc
  · rcases mem_append.1 hc with hc | hc
    · exact hdigit c (l.whole_ok c hc)
    · split at hc
      · cases hc
      · rcases mem_cons.1 hc with rfl | hc
        · exact hdot
        · exact hdigit c (l.fraction_ok c hc)

theorem splitExponent_text (h : l.ScaleFits) :
    splitExponent l.text = some (l.mantissa, l.power) := by
  have hmantissa : ∀ c ∈ l.mantissa, (c == 'e' || c == 'E') = false := by
    refine mem_mantissa (fun c hc => ?_) rfl rfl
    simp [ne_of_isDigit hc (d := 'e') rfl, ne_of_isDigit hc (d := 'E') rfl]
  unfold splitExponent Literal.text
  cases he : l.exponent with
  | none =>
    rw [Option.map_none, Option.getD_none, append_nil, splitOnce_none hmantissa]
    simp [Literal.power, he]
  | some e =>
    have hpower : l.power = e.value := by simp [Literal.power, he]
    obtain ⟨hhi, -, hscale⟩ := h
    unfold Literal.scale at hscale
    rw [Option.map_some, Option.getD_some, Exponent.text,
      splitOnce_append hmantissa (by split <;> rfl)]
    simp only
    rw [parseI32_text e (by omega) (by omega), hpower]
    rfl

private theorem unsigned_eq : l.mantissa.dropWhile (· == '-') =
    l.whole ++ if l.fraction = [] then [] else '.' :: l.fraction := by
  have hne := l.whole_ne
  have hok := l.whole_ok
  unfold Literal.mantissa
  cases hw : l.whole with
  | nil => exact absurd hw hne
  | cons c w =>
    rw [hw] at hok
    have hdash := ne_of_isDigit hok.cons.1 (d := '-') rfl
    cases l.negative <;> simp [hdash]

private theorem head_mantissa : l.mantissa.head? = some '-' ↔ l.negative = true := by
  have hne := l.whole_ne
  have hok := l.whole_ok
  unfold Literal.mantissa
  cases hw : l.whole with
  | nil => exact absurd hw hne
  | cons c w =>
    rw [hw] at hok
    have hdash := ne_of_isDigit hok.cons.1 (d := '-') rfl
    cases l.negative <;> simp [hdash]

private theorem no_point (hd : Digits t) : ∀ c ∈ t, (c == '.') = false := fun c hc => by
  simp [ne_of_isDigit (hd c hc) (d := '.') rfl]

private theorem fractional_eq : ((splitOnce (· == '.')
    (l.whole ++ if l.fraction = [] then [] else '.' :: l.fraction)).map
      fun q => (q.2.length : ℤ)).getD 0 = l.fraction.length := by
  split
  · next h =>
      rw [append_nil, splitOnce_none (no_point l.whole_ok), h]
      rfl
  · rw [splitOnce_append (no_point l.whole_ok) rfl]
    rfl

private theorem digits_eq' : (l.whole ++ if l.fraction = [] then [] else '.' :: l.fraction).filter
    (· != '.') = l.whole ++ l.fraction := by
  have hfilter : ∀ {t : Text}, Digits t → t.filter (· != '.') = t := fun hd =>
    filter_eq_self.2 fun c hc => by simpa using no_point hd c hc
  split
  · next h => rw [append_nil, h, append_nil, hfilter l.whole_ok]
  · rw [filter_append, hfilter l.whole_ok, filter_cons_of_neg (by decide),
      hfilter l.fraction_ok]

/-- The text of a number is that of its trimmed decimal. -/
theorem number_text (h : l.ScaleFits) : number l.text = some l.decimal.trimScale.text := by
  have hdigits := l.whole_ok.append l.fraction_ok
  have hne : l.whole ++ l.fraction ≠ [] := fun hnil => l.whole_ne (append_eq_nil_iff.1 hnil).1
  obtain ⟨hpower, hfraction, hscale⟩ := id h
  have hdef : l.scale = l.fraction.length - l.power := rfl
  unfold number
  rw [splitExponent_text h]
  simp only [Option.bind_eq_bind, Option.bind_some, unsigned_eq, fractional_eq, digits_eq',
    head_mantissa]
  rw [wrapI32_eq (by omega) hfraction, ← hdef, wrapI32_eq (by omega) hscale,
    expand_text hdigits hne (by omega)]
  simp only [Option.bind_some, Option.pure_def, Option.some.injEq]
  unfold Literal.decimal trimScale
  cases l.negative with
  | false => simp
  | true =>
    have hneg := trim_neg_text (digitsValue (l.whole ++ l.fraction) *
      10 ^ (-l.scale).toNat) l.scale.toNat
    push_cast at hneg
    simp only [if_true, true_and, neg_mul, one_mul]
    push_cast
    rw [hneg]
    split <;> simp_all

/-! ## Values -/

theorem keyBytes_injective : Function.Injective keyBytes := by
  intro s t h
  have hbytes := map_injective_iff.2 (fun _ _ => UInt8.toNat_inj.1) h
  exact String.toByteArray_inj.1 (ByteArray.ext (Array.toList_inj.1 hbytes))

/-- A value as both sides write it: its numbers trimmed, its members in the order of their keys. -/
def canonical (v : Json Literal) : Json Decimal :=
  arrange keyBytes (fun l : Literal => l.decimal.trimScale) v

theorem text_numerals : Numerals Decimal.text where
  injective := text_injective
  ne_nil d := by
    obtain ⟨c, t, ht, -⟩ := unsignedText_head d.mantissa.natAbs d.scale
    rw [Decimal.text, ht]
    simp
  chars d c hc := by
    have hdigit : ∀ {t : Text}, Digits t → ∀ c ∈ t, isNumberChar c = true := fun ht c hc => by
      rw [isNumberChar, ht c hc, Bool.true_or, Bool.true_or]
    rcases mem_append.1 hc with hc | hc
    · split at hc
      · rw [mem_singleton.1 hc]
        rfl
      · cases hc
    · rcases mem_append.1 hc with hc | hc
      · exact hdigit (.toDigits _) c hc
      · split at hc
        · cases hc
        · rcases mem_cons.1 hc with rfl | hc
          · rfl
          · exact hdigit (.lastDigits _ _) c hc

section Encode

variable {toWriter : String → Text} {e : Json Literal → Json Literal} {f : Json Literal → Text}

private theorem encodeItems_map {a : List (Json Literal)}
    (h : ∀ v ∈ a, encode toWriter (e v) = some (f v)) :
    encodeItems toWriter (a.map e) = some (a.map f) := by
  induction a with
  | nil => rfl
  | cons v a ih =>
    rw [map_cons, encodeItems, h v mem_cons_self,
      ih fun w hw => h w (mem_cons_of_mem _ hw)]
    rfl

private theorem encodeMembers_map {m : List (String × Json Literal)}
    (h : ∀ p ∈ m, encode toWriter (e p.2) = some (f p.2)) :
    encodeMembers toWriter (m.map fun p => (p.1, e p.2)) =
      some (m.map fun p => toWriter p.1 ++ ':' :: f p.2) := by
  induction m with
  | nil => rfl
  | cons p m ih =>
    rw [map_cons, encodeMembers, h p mem_cons_self,
      ih fun q hq => h q (mem_cons_of_mem _ hq)]
    rfl

end Encode

instance (l : Literal) : Decidable l.ScaleFits := inferInstanceAs (Decidable (_ ∧ _ ∧ _))

/-- The scale of every number fits. -/
def ScalesFit (v : Json Literal) : Prop := v.all (fun l => decide l.ScaleFits) (fun _ => true) = true

/-- The coordinator writes the canonical form. -/
theorem encode_text {toWriter : String → Text} (hwriter : ∀ s, toWriter s = quote s)
    (v : Json Literal) (h : ScalesFit v) :
    encode toWriter (arrange keyBytes id v) = some (text Decimal.text (canonical v)) := by
  induction v using induct with
  | null => rfl
  | bool b => cases b <;> rfl
  | number l =>
    have hl : l.ScaleFits := by simpa [ScalesFit, all] using h
    exact number_text hl
  | string s => exact congrArg some (hwriter s)
  | array a ih =>
    have ha : ∀ v ∈ a, ScalesFit v := by simpa [ScalesFit, all] using h
    simp only [canonical, arrange, arrangeItems_eq, encode, text, textItems_eq, map_map]
    rw [encodeItems_map fun v hv => ih v hv (ha v hv)]
    rfl
  | object m ih =>
    have hm : ∀ p ∈ m, ScalesFit p.2 := by simpa [ScalesFit, all] using h
    simp only [canonical, arrange, arrangeMembers_eq, encode, text, textMembers_eq,
      sortMembers_map, map_map]
    have hsorted : ∀ p ∈ sortMembers keyBytes m,
        encode toWriter (arrange keyBytes id p.2) = some (text Decimal.text (canonical p.2)) :=
      fun p hp => ih p ((sortMembers_perm _ _).mem_iff.1 hp)
        (hm p ((sortMembers_perm _ _).mem_iff.1 hp))
    rw [encodeMembers_map (f := fun v => text Decimal.text (canonical v)) hsorted]
    simp only [hwriter]
    rfl

theorem pcItems_eq (a : List (Json Decimal)) : pcItems a = a.map pcCanonical := by
  induction a with
  | nil => rfl
  | cons v a ih => rw [pcItems, ih, map_cons]

theorem pcMembers_eq (m : List (String × Json Decimal)) :
    pcMembers m = m.map fun p => (p.1, pcCanonical p.2) := by
  induction m with
  | nil => rfl
  | cons p m ih => rw [pcMembers, ih, map_cons]

/-- The database writes its numbers trimmed and its members in the order of their keys. -/
theorem pcCanonical_text (b : Json Decimal) :
    pcCanonical b = text Decimal.text (arrange keyBytes trimScale b) := by
  induction b using induct with
  | null => rfl
  | bool b => cases b <;> rfl
  | number d =>
    rw [pcCanonical, arrange, text]
    split
    · next h => rw [trimScale_text_eq_zero.2 h]
    · rfl
  | string s => rfl
  | array a ih =>
    simp only [pcCanonical, pcItems_eq, arrange, arrangeItems_eq, text, textItems_eq, map_map]
    rw [map_congr_left ih]
    rfl
  | object m ih =>
    simp only [pcCanonical, pcMembers_eq, arrange, arrangeMembers_eq, text, textMembers_eq,
      sortMembers_map, map_map]
    have hmap : (sortMembers keyBytes m).map
          ((fun p => quote p.1 ++ ':' :: p.2) ∘ fun p => (p.1, pcCanonical p.2)) =
        (sortMembers keyBytes m).map ((fun p => quote p.1 ++ ':' :: text Decimal.text p.2) ∘
          fun p => (p.1, arrange keyBytes trimScale p.2)) :=
      map_congr_left fun p hp => by
        simp only [Function.comp_apply, ih p ((sortMembers_perm _ _).mem_iff.1 hp)]
    rw [hmap]

/-- A number that `numeric` holds has a scale that fits. -/
theorem scaleFits_of_isNumeric (h : l.isNumeric = true) : l.ScaleFits := by
  simp only [Literal.isNumeric, Bool.and_eq_true, decide_eq_true_eq] at h
  obtain ⟨⟨⟨hlo, hhi⟩, hscale⟩, -⟩ := h
  have hdef : l.scale = l.fraction.length - l.power := rfl
  exact ⟨by omega, by omega, by omega⟩

/-- The decimal is the number of the token. -/
theorem decimal_value (l : Literal) : l.decimal.value = l.value := by
  simp only [Literal.decimal, Literal.value, value]
  rcases Int.le_total l.scale 0 with h | h
  · obtain ⟨n, hn⟩ := Int.eq_ofNat_of_zero_le (show 0 ≤ -l.scale by omega)
    rw [hn, Int.toNat_of_nonpos h, pow_zero, div_one]
    push_cast
    simp
  · obtain ⟨n, hn⟩ := Int.eq_ofNat_of_zero_le h
    have hneg : (-l.scale).toNat = 0 := by omega
    rw [hneg, pow_zero, mul_one, hn, zpow_neg, div_eq_mul_inv]
    push_cast
    simp

/-- The values are equal: numbers as rationals, objects as maps. -/
def Value.Equal (v w : Value) : Prop := Same (fun l l' => l.value = l'.value) v.1 w.1

theorem canonical_eq_iff (v w : Value) : canonical v.1 = canonical w.1 ↔ v.Equal w :=
  arrange_eq_iff keyBytes_injective
    (fun l l' => by rw [trimScale_eq_iff, decimal_value, decimal_value]) v.2 w.2

/-- Both sides write one text for every value that `jsonb` holds; where the scales fit, the coordinator
writes a text, the values of one text are those that are equal, and no number has a superfluous zero. -/
theorem storage_texts_agree {toWriter : String → Text} (hwriter : ∀ s, toWriter s = quote s) :
    (∀ v b, toJsonb v = some b → ScalesFit v.1 ∧ storageText toWriter v = some (pcCanonical b)) ∧
    (∀ v, ScalesFit v.1 → ∃ t, storageText toWriter v = some t ∧
      ∀ w, ScalesFit w.1 → (storageText toWriter w = some t ↔ v.Equal w)) ∧
    ∀ l : Literal, l.ScaleFits → ∃ d : Decimal, d.value = l.value ∧
      number l.text = some d.text ∧ Decimal.Plain d.text := by
  have hstorage : ∀ v : Value, ScalesFit v.1 →
      storageText toWriter v = some (text Decimal.text (canonical v.1)) :=
    fun v hv => encode_text hwriter v.1 hv
  refine ⟨fun v b hb => ?_, fun v hv => ⟨_, hstorage v hv, fun w hw => ?_⟩, fun l hl =>
    ⟨_, ?_, number_text hl, (trimScale_trimmed _).text_plain⟩⟩
  · unfold toJsonb at hb
    split at hb
    · next hall =>
        obtain rfl := Option.some.inj hb
        have hfit : ScalesFit v.1 :=
          all_mono (fun l hl => decide_eq_true (scaleFits_of_isNumeric hl)) (fun _ _ => rfl) v.1 hall
        refine ⟨hfit, ?_⟩
        rw [hstorage v hfit, pcCanonical_text, arrange_arrange keyBytes_injective v.2]
        rfl
    · cases hb
  · rw [hstorage w hw, Option.some.injEq, (text_injective text_numerals).eq_iff, ← canonical_eq_iff]
    exact eq_comm
  · rw [trimScale_value, decimal_value]

private def token (negative : Bool) (whole fraction : Text) (exponent : Option Exponent)
    (h : whole ≠ [] ∧ Digits whole ∧ Digits fraction) : Literal :=
  ⟨negative, whole, fraction, exponent, h.1, h.2.1, h.2.2⟩

private def power (digits : Text) (h : digits ≠ [] ∧ Digits digits) : Option Exponent :=
  some ⟨false, none, digits, h.1, h.2⟩

/-- Zero and a hundred, each in several spellings. -/
private def spellings : Value :=
  ⟨.object [
    ("zero", .array [
      .number (token false ['0'] [] none (by decide)),
      .number (token true ['0'] ['0'] none (by decide)),
      .number (token false ['0'] [] (power ['5'] (by decide)) (by decide))]),
    ("hundred", .array [
      .number (token false ['1'] [] (power ['2'] (by decide)) (by decide)),
      .number (token false ['1', '0', '0'] ['0', '0'] none (by decide))])], by decide⟩

theorem storage_texts_agree_spellings : storageText quote spellings =
    some "\x7b\"hundred\":[100,100],\"zero\":[0,0,0]\x7d".toList := by
  have hb : toJsonb spellings = some (arrange jsonbKey Literal.decimal spellings.1) :=
    if_pos (by decide +kernel)
  rw [((storage_texts_agree fun _ => rfl).1 spellings _ hb).2]
  decide +kernel

/-- One with an exponent that no `i32` holds. -/
private def farPower : Value :=
  ⟨.number (token false ['1'] []
    (power ['2', '1', '4', '7', '4', '8', '3', '6', '4', '8'] (by decide)) (by decide)), by decide⟩

/-- A token with an exponent beyond `i32` is written by neither side. -/
theorem far_power_has_no_text : ¬ ∀ v : Value, ∃ t b,
    storageText quote v = some t ∧ toJsonb v = some b ∧ t = pcCanonical b := by
  intro hall
  obtain ⟨t, b, ht, -, -⟩ := hall farPower
  have hnone : storageText quote farPower = none := by decide +kernel
  rw [hnone] at ht
  cases ht

end Polis.Coordinator
