import Polis.Serving.Js

/-!
# The texts that the parser accepts

The parser accepts the texts of the grammar in which the first of the four characters after `\u` may also be
a plus sign, and gives the value that the grammar gives: each parser takes the texts of its production off
the front, and no others.
-/

namespace Polis.Js

open JsonText JsonGrammar List Option

/-- What the parser takes for the four characters after `\u`. -/
def RadixQuad (q : List Char) (n : ℕ) : Prop := q.length = 4 ∧ from_str_radix q = some n

/-- An object as its members create it. -/
def Created (m o : Obj Value) : Prop := Listed (Obj.putAll [] m) o

/-- The documents that nest values in no more than `MAX_DEPTH` arrays and objects. -/
def Text (quad : List Char → ℕ → Prop) (text : List Char) (v : Value) : Prop :=
  Document quad F64.ofNumber Created MAX_DEPTH text v

variable {α β : Type} {p : Parser α} {part : List Char → α → Prop} {s t r w : List Char} {x : α}
variable {l : Str}
variable {n : ℕ} {out : List Char} {q : List Char}

/-- What a parser takes off a text is a part. -/
def Sound (p : Parser α) (part : List Char → α → Prop) : Prop :=
  ∀ s x r, p s = .ok (x, r) → ∃ t, s = t ++ r ∧ part t x

/-- What may follow a part: a blank, a comma, a colon or a bracket, or nothing. -/
def Ends (r : List Char) : Prop := ∀ c ∈ r.head?, isBlank c = true ∨ isPunct c = true

/-- A parser takes every part off a text that goes on after it. -/
def Complete (p : Parser α) (part : List Char → α → Prop) : Prop :=
  ∀ t x r, part t x → Ends r → p (t ++ r) = .ok (x, r)

/-! ## Blanks -/

theorem eq_ws (s : List Char) : ∃ w, Blank w ∧ s = w ++ ws s :=
  ⟨s.takeWhile isBlank, fun _ hc => mem_takeWhile_imp hc, (takeWhile_append_dropWhile ..).symm⟩

theorem ws_append (hw : Blank w) : ws (w ++ s) = ws s := dropWhile_append_of_pos hw

/-- A text that does not begin with a blank. -/
def Solid (t : List Char) : Prop := ∃ c l, t = c :: l ∧ isBlank c = false

theorem Solid.ws (ht : Solid t) : ws (t ++ r) = t ++ r := by
  obtain ⟨c, l, rfl, hc⟩ := ht
  exact dropWhile_cons_of_neg (by rw [hc]; exact Bool.false_ne_true)

theorem ws_ends (hw : Blank w) {c : Char} (hc : isBlank c = false) : ws (w ++ c :: r) = c :: r := by
  rw [ws_append hw]
  exact dropWhile_cons_of_neg (by rw [hc]; exact Bool.false_ne_true)

theorem ends_append (hw : Blank w) (hr : Ends r) : Ends (w ++ r) := by
  cases w with
  | nil => exact hr
  | cons b w =>
    rintro c ⟨⟩
    exact .inl (hw _ mem_cons_self)

theorem ends_cons {c : Char} (hc : isBlank c = true ∨ isPunct c = true) : Ends (c :: r) := by
  rintro d ⟨⟩
  exact hc

/-! ## Escapes -/

theorem hexNumber_eq_some (h : hexNumber q = some n) : ∀ c ∈ q, c.utf8Size = 1 := by
  have hrun : ∀ (q : List Char) (a : ℕ),
      (q.foldlM (fun n c => (hexDigit c).map (16 * n + ·)) a).isSome → ∀ c ∈ q, c.utf8Size = 1 := by
    intro q
    induction q with
    | nil => exact fun _ _ c hc => nomatch hc
    | cons c q ih =>
      intro a ha
      rw [foldlM_cons] at ha
      cases hd : hexDigit c with
      | none => rw [hd] at ha; cases ha
      | some d =>
        rw [hd] at ha
        refine forall_mem_cons.2 ⟨?_, ih _ ha⟩
        have hle : ∀ b : Char, b.val ≤ 127 → c ≤ b → c.val ≤ 127 := fun b hb hcb => UInt32.le_trans hcb hb
        refine Char.utf8Size_eq_one_iff.2 ?_
        unfold hexDigit at hd
        split_ifs at hd with h1 h2 h3
        · exact hle '9' (by decide) h1.2
        · exact hle 'f' (by decide) h2.2
        · exact hle 'F' (by decide) h3.2
  exact hrun q 0 (by rw [← hexNumber, h]; rfl)

theorem from_str_radix_eq_some (h : from_str_radix q = some n) :
    ∀ c ∈ q, c.utf8Size = 1 := by
  unfold from_str_radix at h
  split at h
  · exact forall_mem_cons.2 ⟨by decide, hexNumber_eq_some h⟩
  · exact hexNumber_eq_some h

/-- Four digits are read alike by both. -/
theorem Quad.radix (h : Quad q n) : RadixQuad q n := by
  refine ⟨h.1, ?_⟩
  unfold from_str_radix
  split
  · next r => exact absurd h.2 (by rw [hexNumber, foldlM_cons]; rintro ⟨⟩)
  · exact h.2

private theorem sum_utf8Size {l : List Char} (h : ∀ c ∈ l, c.utf8Size = 1) :
    (l.map Char.utf8Size).sum = l.length := by
  rw [map_congr_left h, map_const', sum_replicate_nat, Nat.mul_one]

theorem hex4_iff : hex4 s = .ok (n, r) ↔ ∃ q, s = q ++ r ∧ RadixQuad q n := by
  constructor
  · intro h
    unfold hex4 at h
    split at h
    · cases h
    · next hsize =>
      split at h
      · cases h
      · next value hvalue =>
        cases h
        refine ⟨s.take 4, (take_append_drop ..).symm, ?_, hvalue⟩
        rw [length_take]
        by_contra hlen
        have htake : s.take 4 = s := take_of_length_le (by omega)
        rw [sum_utf8Size (htake ▸ from_str_radix_eq_some hvalue)] at hsize
        omega
  · rintro ⟨q, rfl, hlen, hvalue⟩
    have hsize : ¬((q ++ r).map Char.utf8Size).sum < 4 := by
      rw [map_append, sum_append, sum_utf8Size (from_str_radix_eq_some hvalue), hlen]
      omega
    have htake : (q ++ r).take 4 = q := by rw [← hlen, take_left]
    have hdrop : (q ++ r).drop 4 = r := by rw [← hlen, drop_left]
    unfold hex4
    rw [if_neg hsize, htake, hvalue, hdrop]

theorem RadixQuad.lt (h : RadixQuad q n) : n < 0x10000 := by
  have hdigit : ∀ {c : Char} {d : ℕ}, hexDigit c = some d → d < 16 := by
    intro c d hd
    unfold hexDigit at hd
    have hle : ∀ {a b : Char}, a ≤ b → a.toNat ≤ b.toNat := fun hab => hab
    split_ifs at hd with h1 h2 h3
    · have := hle h1.2
      cases hd
      simp only [show '9'.toNat = 57 from rfl] at this
      omega
    · have := hle h2.2
      cases hd
      simp only [show 'f'.toNat = 102 from rfl] at this
      omega
    · have := hle h3.2
      cases hd
      simp only [show 'F'.toNat = 70 from rfl] at this
      omega
  have hrun : ∀ (l : List Char) (a n : ℕ), l.foldlM (fun n c => (hexDigit c).map (16 * n + ·)) a = some n →
      n < (a + 1) * 16 ^ l.length := by
    intro l
    induction l with
    | nil =>
      rintro a n ⟨⟩
      simp
    | cons c l ih =>
      intro a n hn
      rw [foldlM_cons] at hn
      obtain ⟨b, hb, hn⟩ := bind_eq_some_iff.1 hn
      obtain ⟨d, hd, rfl⟩ := map_eq_some_iff.1 hb
      have hlt := ih _ _ hn
      have hd' := hdigit hd
      calc n < (16 * a + d + 1) * 16 ^ l.length := hlt
        _ ≤ ((a + 1) * 16) * 16 ^ l.length := Nat.mul_le_mul_right _ (by omega)
        _ = (a + 1) * 16 ^ (c :: l).length := by rw [length_cons, pow_succ]; ring
  obtain ⟨hlen, hradix⟩ := h
  unfold from_str_radix at hradix
  split at hradix
  · next l =>
    have := hrun l 0 n hradix
    rw [length_cons] at hlen
    rw [show l.length = 3 by omega] at this
    omega
  · have := hrun q 0 n hradix
    rw [hlen] at this
    omega

theorem codePoint_sound {code : ℕ} (h : codePoint s = .ok (code, r)) :
    (∃ q, s = q ++ r ∧ RadixQuad q code) ∨
    ∃ q q' n m, s = q ++ '\\' :: 'u' :: (q' ++ r) ∧ RadixQuad q n ∧ RadixQuad q' m ∧ isHigh n = true ∧
      isLow m = true ∧ code = 0x10000 + (n - 0xD800) * 0x400 + (m - 0xDC00) := by
  obtain ⟨⟨n, s₁⟩, hfirst, hrest⟩ := bind_eq_ok.1 h
  obtain ⟨q, rfl, hq⟩ := hex4_iff.1 hfirst
  dsimp only at hrest
  split at hrest
  · next hnext =>
    obtain ⟨⟨m, s₂⟩, hsecond, hrest⟩ := bind_eq_ok.1 hrest
    obtain ⟨q', hs₂, hq'⟩ := hex4_iff.1 hsecond
    have htake : s₁ = '\\' :: 'u' :: (q' ++ s₂) := by
      rw [← take_append_drop 2 s₁, hnext.2, hs₂]
      rfl
    dsimp only at hrest
    split at hrest
    · next hlow =>
      obtain ⟨hcode, rfl⟩ := Prod.mk.inj (Except.ok.inj hrest)
      exact .inr ⟨q, q', n, m, by rw [htake], hq, hq', hnext.1, hlow, hcode.symm⟩
    · cases hrest
      exact .inl ⟨q, rfl, hq⟩
  · cases hrest
    exact .inl ⟨q, rfl, hq⟩

theorem codePoint_single (hq : RadixQuad q n) (hhigh : isHigh n = false) :
    codePoint (q ++ r) = .ok (n, r) := by
  refine bind_eq_ok.2 ⟨(n, r), hex4_iff.2 ⟨q, rfl, hq⟩, ?_⟩
  dsimp only
  rw [if_neg (by rw [hhigh]; exact fun h => absurd h.1 Bool.false_ne_true)]
  rfl

theorem codePoint_pair {q q' : List Char} {n m : ℕ} (hq : RadixQuad q n) (hq' : RadixQuad q' m)
    (hhigh : isHigh n = true) (hlow : isLow m = true) :
    codePoint (q ++ '\\' :: 'u' :: (q' ++ r)) =
      .ok (0x10000 + (n - 0xD800) * 0x400 + (m - 0xDC00), r) := by
  refine bind_eq_ok.2 ⟨(n, _), hex4_iff.2 ⟨q, rfl, hq⟩, ?_⟩
  dsimp only
  rw [if_pos ⟨hhigh, rfl⟩]
  refine bind_eq_ok.2 ⟨(m, r), hex4_iff.2 ⟨q', rfl, hq'⟩, ?_⟩
  dsimp only
  rw [if_pos hlow]
  rfl

theorem from_u32_eq_some {ch : Char} (h : from_u32 n = some ch) :
    n.isValidChar ∧ ch = Char.ofNat n := by
  unfold from_u32 at h
  split_ifs at h with hvalid
  exact ⟨hvalid, (Option.some.inj h).symm⟩

theorem unitChar_eq (n : ℕ) : unitChar (ε := Unit) (.ok (Char.ofNat 0)) n = .ok (Char.ofNat n) := by
  unfold unitChar
  split
  · next h => rw [h]
  · rfl

/-- A code unit that is a character is no surrogate. -/
theorem not_surrogate (h : n.isValidChar) : isHigh n = false ∧ isLow n = false := by
  simp only [isHigh, isLow, Bool.and_eq_false_iff, decide_eq_false_iff_not]
  unfold Nat.isValidChar at h
  omega

theorem chars_char {c : Char} (h : chars l = .ok out) :
    chars (.char c :: l) = .ok (c :: out) := by
  rw [chars] at h ⊢
  rw [decode, h]
  rfl

theorem chars_unit (hn : n.isValidChar) (h : chars l = .ok out) :
    chars (.unit n :: l) = .ok (Char.ofNat n :: out) := by
  obtain ⟨hhigh, hlow⟩ := not_surrogate hn
  rw [chars] at h ⊢
  unfold decode
  rw [hhigh, hlow, unitChar_eq, h]
  rfl

theorem chars_pair {n m : ℕ} (hhigh : isHigh n = true) (hlow : isLow m = true)
    (h : chars l = .ok out) : chars (.unit n :: .unit m :: l) = .ok (pair n m :: out) := by
  rw [chars] at h ⊢
  unfold decode
  rw [if_pos hhigh]
  dsimp only
  rw [if_pos hlow, h]
  rfl

/-! ## Strings -/

/-- What an escape takes off is one piece, or the two of a pair. -/
theorem escaped_sound {ch : Char} (h : escaped s = .ok (ch, r)) :
    ∃ t l, '\\' :: s = t ++ r ∧ PieceTexts RadixQuad t l ∧
      ∀ l' out, chars l' = .ok out → chars (l ++ l') = .ok (ch :: out) := by
  have one : ∀ {t : List Char} {p : Piece}, PieceText RadixQuad t p → PieceTexts RadixQuad t [p] := fun hp => by
    have hnil : PieceTexts RadixQuad [] [] := .nil
    have hcons := PieceTexts.cons hp hnil
    rwa [append_nil] at hcons
  unfold escaped at h
  split at h
  · cases h
  · next s =>
    obtain ⟨⟨code, s'⟩, hcode, h⟩ := bind_eq_ok.1 h
    dsimp only at h
    split at h
    · cases h
    · next ch' hch =>
      cases h
      obtain ⟨hvalid, rfl⟩ := from_u32_eq_some hch
      rcases codePoint_sound hcode with ⟨q, rfl, hq⟩ | ⟨q, q', n, m, rfl, hq, hq', hhigh, hlow, hcode⟩
      · exact ⟨_, _, rfl, one (.unit hq), fun l' out hl => chars_unit hvalid hl⟩
      · refine ⟨('\\' :: 'u' :: q) ++ ('\\' :: 'u' :: q'), [.unit n, .unit m], by
          rw [append_assoc]
          rfl,
          .cons (.unit hq) (one (.unit hq')), fun l' out hl => ?_⟩
        have hpair : Char.ofNat code = pair n m := by rw [hcode, pair]
        rw [hpair]
        exact chars_pair hhigh hlow hl
  · next c s _ =>
    split at h
    · cases h
    · next ch' hch =>
      cases h
      exact ⟨['\\', c], _, rfl, one (.escape hch), fun l' out hl => chars_char hl⟩

theorem stringBody_sound (h : stringBody n s = .ok (out, r)) :
    ∃ t l, s = t ++ '"' :: r ∧ PieceTexts RadixQuad t l ∧ chars l = .ok out := by
  induction n generalizing s out with
  | zero => cases h
  | succ n ih =>
    cases s with
    | nil => cases h
    | cons c s =>
      unfold stringBody at h
      split_ifs at h with hquote hbackslash hcontrol
      · cases h
        exact ⟨[], [], by rw [hquote]; rfl, .nil, rfl⟩
      · obtain ⟨⟨ch, s₁⟩, hescaped, h⟩ := bind_eq_ok.1 h
        obtain ⟨⟨out', s₂⟩, hbody, h⟩ := bind_eq_ok.1 h
        cases h
        obtain ⟨t, l, ht, hl, hchars⟩ := escaped_sound hescaped
        obtain ⟨t', l', rfl, hl', hchars'⟩ := ih hbody
        refine ⟨t ++ t', l ++ l', by rw [hbackslash, ht, append_assoc], ?_, hchars _ _ hchars'⟩
        clear ht hchars
        induction hl with
        | nil => exact hl'
        | cons hp _ ih =>
          rw [append_assoc]
          exact .cons hp ih
      · obtain ⟨⟨out', s₂⟩, hbody, h⟩ := bind_eq_ok.1 h
        cases h
        obtain ⟨t', l', rfl, hl', hchars'⟩ := ih hbody
        exact ⟨c :: t', .char c :: l', rfl, .cons (.char hquote hbackslash (not_lt.1 hcontrol)) hl',
          chars_char hchars'⟩

theorem string_sound : Sound string (StringText RadixQuad) := by
  intro s x r h
  obtain ⟨s₁, hquote, h⟩ := bind_eq_ok.1 h
  obtain ⟨⟨out, s₂⟩, hbody, h⟩ := bind_eq_ok.1 h
  cases h
  obtain ⟨t, l, rfl, hl, hchars⟩ := stringBody_sound hbody
  unfold expect at hquote
  split at hquote
  · next c s =>
    split_ifs at hquote with hc
    cases hquote
    refine ⟨'"' :: t ++ ['"'], by simp [hc], t, l, rfl, hl, ?_⟩
    rw [String.toList_ofList]
    exact hchars
  · cases hquote

theorem escaped_simple {c d : Char} (h : unescape c = some d) : escaped (c :: r) = .ok (d, r) := by
  unfold escaped
  split
  · next heq => cases heq
  · next heq =>
    cases heq
    cases (show unescape 'u' = none from rfl).symm.trans h
  · next c' s' _ heq =>
    cases heq
    rw [h]

theorem from_u32_of_valid (h : n.isValidChar) : from_u32 n = some (Char.ofNat n) := if_pos h

theorem escaped_unit (hq : RadixQuad q n) (hhigh : isHigh n = false) (hlow : isLow n = false) :
    escaped ('u' :: (q ++ r)) = .ok (Char.ofNat n, r) := by
  have hvalid : n.isValidChar := by
    have hlt := hq.lt
    simp only [isHigh, isLow, Bool.and_eq_false_iff, decide_eq_false_iff_not] at hhigh hlow
    unfold Nat.isValidChar
    omega
  refine bind_eq_ok.2 ⟨(n, r), codePoint_single hq hhigh, ?_⟩
  dsimp only
  rw [from_u32_of_valid hvalid]

theorem escaped_pair {q q' : List Char} {n m : ℕ} (hq : RadixQuad q n) (hq' : RadixQuad q' m)
    (hhigh : isHigh n = true) (hlow : isLow m = true) :
    escaped ('u' :: (q ++ '\\' :: 'u' :: (q' ++ r))) = .ok (pair n m, r) := by
  obtain ⟨code, hcode⟩ : ∃ code, code = 0x10000 + (n - 0xD800) * 0x400 + (m - 0xDC00) := ⟨_, rfl⟩
  have hvalid : code.isValidChar := by
    simp only [isHigh, isLow, Bool.and_eq_true, decide_eq_true_eq] at hhigh hlow
    unfold Nat.isValidChar
    omega
  have hpoint : codePoint (q ++ '\\' :: 'u' :: (q' ++ r)) = .ok (code, r) := by
    rw [hcode]
    exact codePoint_pair hq hq' hhigh hlow
  have hpair : Char.ofNat code = pair n m := by rw [hcode, pair]
  refine bind_eq_ok.2 ⟨(code, r), hpoint, ?_⟩
  dsimp only
  rw [from_u32_of_valid hvalid, hpair]

theorem stringBody_escaped {ch : Char} (h : escaped s = .ok (ch, t))
    (hbody : stringBody n t = .ok (out, r)) : stringBody (n + 1) ('\\' :: s) = .ok (ch :: out, r) := by
  unfold stringBody
  rw [if_neg (by decide), if_pos rfl]
  refine bind_eq_ok.2 ⟨_, h, bind_eq_ok.2 ⟨_, hbody, rfl⟩⟩

theorem stringBody_complete (hl : PieceTexts RadixQuad t l)
    (hchars : chars l = .ok out) (hn : l.length < n) : stringBody n (t ++ '"' :: r) = .ok (out, r) := by
  obtain ⟨n, rfl⟩ : ∃ m, n = m + 1 := ⟨n - 1, by omega⟩
  unfold chars at hchars
  fun_induction decode () (.ok (Char.ofNat 0)) l generalizing t out n with
  | case1 =>
    cases hl
    cases hchars
    rfl
  | case2 c s ih =>
    obtain ⟨out', hout, hchars⟩ := bind_eq_ok.1 hchars
    cases hchars
    rw [length_cons] at hn
    obtain ⟨n, rfl⟩ : ∃ m, n = m + 1 := ⟨n - 1, by omega⟩
    cases hl with
    | cons hp hrest =>
      have hbody := ih hrest hout (n := n) (by omega)
      rw [append_assoc]
      cases hp with
      | char hquote hbackslash hcontrol =>
        change stringBody (n + 1 + 1) (c :: _) = _
        unfold stringBody
        rw [if_neg hquote, if_neg hbackslash, if_neg (by omega)]
        exact bind_eq_ok.2 ⟨_, hbody, rfl⟩
      | escape h => exact stringBody_escaped (escaped_simple h) hbody
  | case3 k hhigh m s hlow ih =>
    obtain ⟨out', hout, hchars⟩ := bind_eq_ok.1 hchars
    cases hchars
    rw [length_cons, length_cons] at hn
    obtain ⟨n, rfl⟩ : ∃ m, n = m + 1 := ⟨n - 1, by omega⟩
    cases hl with
    | cons hp hl =>
      cases hp with
      | unit hq =>
        cases hl with
        | cons hp hrest =>
          cases hp with
          | unit hq' =>
            have hbody := ih hrest hout (n := n) (by omega)
            rw [append_assoc, append_assoc]
            exact stringBody_escaped (escaped_pair hq hq' hhigh hlow) hbody
  | case7 k s hhigh hlow ih =>
    obtain ⟨c, hc, hchars⟩ := bind_eq_ok.1 hchars
    obtain ⟨out', hout, hchars⟩ := bind_eq_ok.1 hchars
    cases hchars
    rw [unitChar_eq] at hc
    cases hc
    rw [length_cons] at hn
    obtain ⟨n, rfl⟩ : ∃ m, n = m + 1 := ⟨n - 1, by omega⟩
    cases hl with
    | cons hp hrest =>
      cases hp with
      | unit hq =>
        have hbody := ih hrest hout (n := n) (by omega)
        rw [append_assoc]
        exact stringBody_escaped
          (escaped_unit hq (Bool.eq_false_of_not_eq_true hhigh) (Bool.eq_false_of_not_eq_true hlow)) hbody
  | _ => cases hchars

theorem PieceTexts.length_le {quad : List Char → ℕ → Prop} (h : PieceTexts quad t l) :
    l.length ≤ t.length := by
  induction h with
  | nil => exact le_rfl
  | cons hp _ ih =>
    rw [length_cons, length_append]
    cases hp <;> simp only [length_cons, length_nil] <;> omega

theorem string_complete : Complete string (StringText RadixQuad) := by
  rintro t x r ⟨body, l, rfl, hl, hchars⟩ _
  have hlen := PieceTexts.length_le hl
  have htext : '"' :: body ++ ['"'] ++ r = '"' :: (body ++ '"' :: r) := by simp
  rw [htext]
  refine bind_eq_ok.2 ⟨body ++ '"' :: r, rfl, bind_eq_ok.2 ⟨(x.toList, r), ?_, ?_⟩⟩
  · refine stringBody_complete hl hchars ?_
    rw [length_append, length_cons]
    omega
  · exact congrArg (fun x => Except.ok (x, r)) (String.ofList_toList)

/-! ## Numbers -/

/-- What a number text is read as. -/
def NumberText (t : List Char) (v : Value) : Prop := ∃ n, readNumber t = some n ∧ v = .number (.ofNumber n)

theorem integerEnd_suffix (h : integerEnd s = some r) : r <:+ s := by
  unfold integerEnd at h
  split at h
  · cases h
  · next c l =>
    split_ifs at h
    · cases h
      exact suffix_cons ..
    · cases h
      exact (dropWhile_suffix _).trans (suffix_cons ..)

theorem fractionEnd_suffix (h : fractionEnd s = some r) : r <:+ s := by
  unfold fractionEnd at h
  split at h
  · cases h
    exact suffix_refl _
  · next c l =>
    split_ifs at h
    · cases h
      exact (dropWhile_suffix _).trans (suffix_cons ..)
    · cases h
      exact suffix_refl _

theorem exponentEnd_suffix (h : exponentEnd s = some r) : r <:+ s := by
  unfold exponentEnd at h
  split at h
  · cases h
    exact suffix_refl _
  · next c l =>
    dsimp only at h
    split_ifs at h with hc hsign
    · cases h
      exact (dropWhile_suffix _).trans ((tail_suffix l).trans (suffix_cons ..))
    · cases h
      exact (dropWhile_suffix _).trans (suffix_cons ..)
    · cases h
      exact suffix_refl _

theorem number_sound : Sound number NumberText := by
  intro start x r h
  unfold number at h
  dsimp only at h
  split at h
  · cases h
  · next rest hrest =>
    split at h
    · cases h
    · next y hy =>
      cases h
      obtain ⟨s₁, h1, hrest⟩ := bind_eq_some_iff.1 hrest
      obtain ⟨s₂, h2, h3⟩ := bind_eq_some_iff.1 hrest
      have hunsigned : (if start.head? = some '-' then start.tail else start) <:+ start := by
        split
        · exact tail_suffix _
        · exact suffix_refl _
      obtain ⟨t, ht⟩ := (((exponentEnd_suffix h3).trans (fractionEnd_suffix h2)).trans
        (integerEnd_suffix h1)).trans hunsigned
      have htake : start.take (start.length - r.length) = t := by
        rw [← ht, length_append, Nat.add_sub_cancel, take_left]
      rw [htake] at hy
      obtain ⟨n, hn, rfl⟩ := map_eq_some_iff.1 hy
      exact ⟨t, ht.symm, n, hn, rfl⟩

/-- What ends a value goes on with no number. -/
theorem Ends.head {c : Char} (hr : Ends r) (hc : c ∈ r.head?) :
    c.isDigit = false ∧ c ≠ '.' ∧ c ≠ 'e' ∧ c ≠ 'E' := by
  have hcases : c = ' ' ∨ c = '\t' ∨ c = '\n' ∨ c = '\r' ∨ c = '[' ∨ c = ']' ∨ c = '\x7b' ∨ c = '\x7d' ∨
      c = ',' ∨ c = ':' := by
    rcases hr c hc with h | h
    · simp only [isBlank, Bool.or_eq_true, decide_eq_true_eq] at h
      tauto
    · simp only [isPunct, contains_eq_mem, decide_eq_true_eq, mem_cons, not_mem_nil, or_false] at h
      tauto
  rcases hcases with rfl | rfl | rfl | rfl | rfl | rfl | rfl | rfl | rfl | rfl <;> decide

section Span

variable {q : Char → Bool} {l : List Char}

theorem takeWhile_append_stop (hr : ∀ c ∈ r.head?, q c = false) : (l ++ r).takeWhile q = l.takeWhile q := by
  induction l with
  | nil => cases r with
      | nil => rfl
      | cons c r => exact takeWhile_cons_of_neg (by rw [hr c rfl]; exact Bool.false_ne_true)
  | cons c l ih => rw [cons_append, takeWhile_cons, takeWhile_cons, ih]

theorem dropWhile_append_stop (hr : ∀ c ∈ r.head?, q c = false) : (l ++ r).dropWhile q = l.dropWhile q ++ r := by
  induction l with
  | nil => cases r with
      | nil => rfl
      | cons c r => exact dropWhile_cons_of_neg (by rw [hr c rfl]; exact Bool.false_ne_true)
  | cons c l ih =>
    rw [cons_append, dropWhile_cons, dropWhile_cons, ih]
    split <;> rfl

end Span

theorem integerEnd_append (hwhole : s.takeWhile Char.isDigit ≠ [])
    (hzero : ¬((s.takeWhile Char.isDigit).head? = some '0' ∧ s.takeWhile Char.isDigit ≠ ['0'])) (hr : Ends r) :
    integerEnd (s ++ r) = some (s.dropWhile Char.isDigit ++ r) := by
  cases s with
  | nil => exact absurd rfl hwhole
  | cons c l =>
    have hc : c.isDigit = true := by
      by_contra hc
      exact hwhole (takeWhile_cons_of_neg hc)
    have hdrop : (c :: l).dropWhile Char.isDigit = l.dropWhile Char.isDigit := dropWhile_cons_of_pos hc
    rw [hdrop]
    change (if c = '0' then some (l ++ r) else _) = _
    by_cases h0 : c = '0'
    · rw [takeWhile_cons_of_pos hc, h0] at hzero
      have hl : l.takeWhile Char.isDigit = [] := by
        by_contra hl
        exact hzero ⟨rfl, fun heq => hl (List.cons.inj heq).2⟩
      have hself := takeWhile_append_dropWhile (p := Char.isDigit) (l := l)
      rw [hl, nil_append] at hself
      rw [if_pos h0, hself]
    · rw [if_neg h0, if_pos hc]
      exact congrArg some (dropWhile_append_stop fun d hd => (hr.head hd).1)

theorem fractionEnd_append {frac rest : List Char} (h : readFrac s = some (frac, rest)) (hr : Ends r) :
    fractionEnd (s ++ r) = some (rest ++ r) := by
  have hdigit : ∀ d ∈ r.head?, d.isDigit = false := fun d hd => (hr.head hd).1
  unfold readFrac at h
  split at h
  · next cs =>
    split_ifs at h with hcs
    cases h
    change (if (cs ++ r).takeWhile Char.isDigit = [] then none else _) = _
    rw [takeWhile_append_stop hdigit, if_neg hcs]
    exact congrArg some (dropWhile_append_stop hdigit)
  · next hpoint =>
    cases h
    cases s with
    | nil => cases r with
        | nil => rfl
        | cons c r => exact if_neg (hr.head rfl).2.1
    | cons c s => exact if_neg fun hc => hpoint s (by rw [hc])

theorem exponentEnd_append {e : Option ℤ} (h : readExp s = some e) (hr : Ends r) :
    exponentEnd (s ++ r) = some r := by
  have hdigit : ∀ d ∈ r.head?, d.isDigit = false := fun d hd => (hr.head hd).1
  cases s with
  | nil => cases r with
      | nil => rfl
      | cons c r => exact if_neg (not_or.2 (hr.head rfl).2.2)
  | cons c cs =>
    have hhead : cs ≠ [] → (cs ++ r).head? = cs.head? ∧ (cs ++ r).tail = cs.tail ++ r := fun hcs => by
      obtain ⟨d, cs, rfl⟩ := exists_cons_of_ne_nil hcs
      exact ⟨rfl, rfl⟩
    unfold readExp at h
    dsimp only at h
    generalize hdigits : (if cs.head? = some '-' ∨ cs.head? = some '+' then cs.tail else cs) = digits at h
    obtain ⟨hc, hne, hall⟩ : (c = 'e' ∨ c = 'E') ∧ digits ≠ [] ∧ digits.all Char.isDigit = true := by
      by_contra hno
      rw [if_neg hno] at h
      cases h
    have hcs : cs ≠ [] := fun hcs => hne (by rw [← hdigits, hcs]; rfl)
    have htext : (if (cs ++ r).head? = some '+' ∨ (cs ++ r).head? = some '-' then (cs ++ r).tail else cs ++ r) =
        digits ++ r := by
      rw [(hhead hcs).1, (hhead hcs).2, ← hdigits]
      by_cases hsign : cs.head? = some '-' ∨ cs.head? = some '+'
      · rw [if_pos hsign, if_pos hsign.symm]
      · rw [if_neg hsign, if_neg fun h => hsign h.symm]
    have htake : digits.takeWhile Char.isDigit = digits :=
      takeWhile_eq_self_iff.2 (all_eq_true.1 hall)
    have hdrop : digits.dropWhile Char.isDigit = [] :=
      dropWhile_eq_nil_iff.2 (all_eq_true.1 hall)
    change (if c = 'e' ∨ c = 'E' then _ else _) = _
    rw [if_pos hc]
    change (if List.takeWhile Char.isDigit (if (cs ++ r).head? = some '+' ∨ (cs ++ r).head? = some '-' then
      (cs ++ r).tail else cs ++ r) = [] then none else _) = _
    rw [htext, takeWhile_append_stop hdigit, htake, if_neg hne]
    refine congrArg some ((congrArg (List.dropWhile Char.isDigit) htext).trans ?_)
    rw [dropWhile_append_stop hdigit, hdrop, nil_append]

theorem number_complete : Complete number NumberText := by
  rintro t x r ⟨n, hread, rfl⟩ hr
  have hparse : parse_f64 t = some (.ofNumber n) := by rw [parse_f64, hread, map_some]
  unfold readNumber at hread
  dsimp only at hread
  split_ifs at hread with hminus hbad hbad
  all_goals
    obtain ⟨⟨frac, rest⟩, hfrac, hread⟩ := bind_eq_some_iff.1 hread
    obtain ⟨e, he, -⟩ := bind_eq_some_iff.1 hread
    obtain ⟨hwhole, hzero⟩ := not_or.1 hbad
    have hend : ((integerEnd _).bind fun s => (fractionEnd s).bind exponentEnd) = some r :=
      bind_eq_some_iff.2 ⟨_, integerEnd_append hwhole hzero hr,
        bind_eq_some_iff.2 ⟨_, fractionEnd_append hfrac hr, exponentEnd_append he hr⟩⟩
    have htake : (t ++ r).take ((t ++ r).length - r.length) = t := by
      rw [length_append, Nat.add_sub_cancel, take_left]
  · have hunsigned : (if (t ++ r).head? = some '-' then (t ++ r).tail else t ++ r) = t.tail ++ r := by
      obtain ⟨c, l, rfl⟩ : ∃ c l, t = c :: l := by
        cases t with
        | nil => simp at hminus
        | cons c l => exact ⟨c, l, rfl⟩
      rw [decide_eq_true_eq] at hminus
      exact if_pos hminus
    unfold number
    dsimp only
    rw [hunsigned, hend]
    dsimp only
    rw [htake, hparse]
  · have hunsigned : (if (t ++ r).head? = some '-' then (t ++ r).tail else t ++ r) = t ++ r := by
      refine if_neg fun hhead => hminus (decide_eq_true ?_)
      cases t with
      | nil => exact absurd rfl hwhole
      | cons c l => exact hhead
    unfold number
    dsimp only
    rw [hunsigned, hend]
    dsimp only
    rw [htake, hparse]

end Polis.Js
