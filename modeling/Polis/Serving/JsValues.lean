import Polis.Serving.JsTheorems
import Mathlib.Tactic.IntervalCases

/-!
# The values that the parser gives

The parser of a value takes the texts of one level of the grammar when the parser of the values inside takes
those of the level below; the accepted texts are those of the whole grammar by induction on the levels.
-/

namespace Polis.Js

open JsonText JsonGrammar List

variable {α β : Type} {p : Parser α} {part : List Char → α → Prop} {s t r w : List Char} {x : α}

/-! ## Parts with commas between them -/

/-- The text of a part begins with no blank and does not close a list. -/
def Begins (t : List Char) : Prop := ∃ c l, t = c :: l ∧ isBlank c = false ∧ c ≠ ']' ∧ c ≠ '\x7d'

theorem Begins.solid (h : Begins t) : Solid t := by
  obtain ⟨c, l, ht, hc, -⟩ := h
  exact ⟨c, l, ht, hc⟩

section Parts

variable {push : β → α → β} {close : Char}

theorem parts_sound (hp : Sound p part) {n : ℕ} {out b : β} (h : parts p push close n out s = .ok (b, r)) :
    ∃ t xs, s = t ++ close :: r ∧ Separated (Spaced part) t xs ∧ b = xs.foldl push out := by
  induction n generalizing s out with
  | zero => cases h
  | succ n ih =>
    obtain ⟨⟨x, s₁⟩, hx, h⟩ := bind_eq_ok.1 h
    obtain ⟨t, ht, hpart⟩ := hp _ _ _ hx
    obtain ⟨w, hw, hs⟩ := eq_ws s
    obtain ⟨w', hw', hs₁⟩ := eq_ws s₁
    have hspaced : Spaced part (w ++ t ++ w') x := ⟨w, t, w', hw, hpart, hw', rfl⟩
    have htext : s = w ++ t ++ w' ++ ws s₁ := by rw [append_assoc, ← hs₁, append_assoc, ← ht, ← hs]
    dsimp only at h
    split at h
    · cases h
    · next c l hrest =>
      rw [hrest] at htext
      split_ifs at h with hcomma hclose
      · obtain ⟨t', xs, rfl, hxs, rfl⟩ := ih h
        exact ⟨_, x :: xs, by rw [htext, hcomma]; simp, .cons hspaced hxs, rfl⟩
      · cases h
        exact ⟨_, [x], by rw [htext, hclose], .one hspaced, rfl⟩

theorem parts_complete (hp : Complete p part) (hbegins : ∀ t x, part t x → Begins t) (hblank : isBlank close = false)
    (hpunct : isPunct close = true) (hcomma : close ≠ ',') {xs : List α} (h : Separated (Spaced part) t xs)
    {n : ℕ} (hn : xs.length ≤ n) (out : β) :
    parts p push close n out (t ++ close :: r) = .ok (xs.foldl push out, r) := by
  have take : ∀ {t : List Char} {x : α} {c : Char} {l : List Char}, Spaced part t x → isBlank c = false →
      isPunct c = true → ∃ s', p (ws (t ++ c :: l)) = .ok (x, s') ∧ ws s' = c :: l := by
    rintro t x c l ⟨w, t', w', hw, hpart, hw', rfl⟩ hc hc'
    refine ⟨w' ++ c :: l, ?_, ws_ends hw' hc⟩
    rw [append_assoc, append_assoc, ws_append hw, (hbegins _ _ hpart).solid.ws]
    exact hp _ _ _ hpart (ends_append hw' (ends_cons (.inr hc')))
  induction h generalizing n out with
  | one hx =>
    obtain ⟨n, rfl⟩ : ∃ m, n = m + 1 := ⟨n - 1, by rw [length_singleton] at hn; omega⟩
    obtain ⟨s', hs', hws⟩ := take (l := r) hx hblank hpunct
    refine bind_eq_ok.2 ⟨_, hs', ?_⟩
    dsimp only
    rw [hws]
    dsimp only
    rw [if_neg hcomma, if_pos rfl]
    rfl
  | @cons t t' x xs hx _ ih =>
    rw [length_cons] at hn
    obtain ⟨n, rfl⟩ : ∃ m, n = m + 1 := ⟨n - 1, by omega⟩
    obtain ⟨s', hs', hws⟩ := take (c := ',') (l := t' ++ close :: r) hx rfl rfl
    rw [append_assoc, cons_append]
    refine bind_eq_ok.2 ⟨_, hs', ?_⟩
    dsimp only
    rw [hws]
    dsimp only
    rw [if_pos rfl]
    exact ih (by omega) (push out x)

theorem separated_blank (hw : Blank w) {xs : List α} (h : Separated (Spaced part) t xs) :
    Separated (Spaced part) (w ++ t) xs := by
  have first : ∀ {t : List Char} {x : α}, Spaced part t x → Spaced part (w ++ t) x := by
    rintro t x ⟨w₁, t', w', hw₁, hpart, hw', rfl⟩
    refine ⟨w ++ w₁, t', w', fun c hc => ?_, hpart, hw', by simp⟩
    exact (mem_append.1 hc).elim (hw c) (hw₁ c)
  cases h with
  | one hx => exact .one (first hx)
  | cons hx hxs =>
    rw [← append_assoc]
    exact .cons (first hx) hxs

/-- Blanks at the front belong to the first part. -/
theorem separated_ws {xs : List α} (hbegins : ∀ t x, part t x → Begins t) (h : Separated (Spaced part) t xs) :
    ∃ t', Separated (Spaced part) t' xs ∧ Begins t' ∧ ∀ r, ws (t ++ r) = t' ++ r := by
  have first : ∀ {t : List Char} {x : α}, Spaced part t x →
      ∃ t', Spaced part t' x ∧ Begins t' ∧ ∀ r, ws (t ++ r) = t' ++ r := by
    rintro t x ⟨w, t', w', hw, hpart, hw', rfl⟩
    obtain ⟨c, l, rfl, hc, hclose⟩ := hbegins _ _ hpart
    refine ⟨(c :: l) ++ w', ⟨[], _, w', nofun, hpart, hw', rfl⟩, ⟨c, l ++ w', rfl, hc, hclose⟩, fun r => ?_⟩
    rw [append_assoc, append_assoc, ws_append hw, Solid.ws ⟨c, l, rfl, hc⟩, append_assoc]
  cases h with
  | one hx =>
    obtain ⟨t', hx', hb, hws⟩ := first hx
    exact ⟨t', .one hx', hb, hws⟩
  | cons hx hxs =>
    obtain ⟨t', hx', ⟨c, l, rfl, hc⟩, hws⟩ := first hx
    refine ⟨_, .cons hx' hxs, ⟨c, _, rfl, hc⟩, fun r => ?_⟩
    rw [append_assoc, hws, ← append_assoc]

end Parts

/-! ## Members -/

section Members

variable {part : List Char → Value → Prop} {value : Parser Value}

theorem expect_eq_ok {b : Char} : expect b s = .ok r ↔ s = b :: r := by
  unfold expect
  split
  · next c l =>
    constructor
    · intro h
      split_ifs at h with hc
      cases h
      rw [hc]
    · intro h
      cases h
      exact if_pos rfl
  · exact ⟨nofun, nofun⟩

theorem member_sound (h : Sound value part) : Sound (member value) (MemberText RadixQuad part) := by
  intro s x r hx
  obtain ⟨⟨key, s₁⟩, hkey, hx⟩ := bind_eq_ok.1 hx
  obtain ⟨s₂, hcolon, hx⟩ := bind_eq_ok.1 hx
  obtain ⟨⟨v, s₃⟩, hv, hx⟩ := bind_eq_ok.1 hx
  cases hx
  obtain ⟨k, rfl, hk⟩ := string_sound _ _ _ hkey
  obtain ⟨w, hw, hs₁⟩ := eq_ws s₁
  obtain ⟨w', hw', hs₂⟩ := eq_ws s₂
  obtain ⟨t, ht, hpart⟩ := h _ _ _ hv
  refine ⟨_, ?_, k, w, w', t, hk, hw, hw', hpart, rfl⟩
  rw [hs₁, expect_eq_ok.1 hcolon, hs₂, ht]
  simp

theorem StringText.begins {quad : List Char → ℕ → Prop} {k : String} (h : StringText quad t k) : Begins t := by
  obtain ⟨body, l, rfl, -⟩ := h
  exact ⟨'"', _, rfl, rfl, by decide, by decide⟩

theorem MemberText.begins {m : String × Value} (h : MemberText RadixQuad part t m) : Begins t := by
  obtain ⟨k, w, w', t', hk, -, -, -, rfl⟩ := h
  obtain ⟨c, l, rfl, hc⟩ := StringText.begins hk
  exact ⟨c, _, rfl, hc⟩

theorem member_complete (h : Complete value part) (hbegins : ∀ t v, part t v → Begins t) :
    Complete (member value) (MemberText RadixQuad part) := by
  rintro _ ⟨key, v⟩ r ⟨k, w, w', t, hk, hw, hw', hpart, rfl⟩ hr
  have htext : k ++ w ++ ':' :: (w' ++ t) ++ r = k ++ (w ++ ':' :: (w' ++ (t ++ r))) := by simp
  rw [htext]
  refine bind_eq_ok.2 ⟨_, string_complete _ _ _ hk (ends_append hw (ends_cons (.inr rfl))), ?_⟩
  refine bind_eq_ok.2 ⟨w' ++ (t ++ r), expect_eq_ok.2 (ws_ends hw rfl), ?_⟩
  refine bind_eq_ok.2 ⟨(v, r), ?_, rfl⟩
  rw [ws_append hw', (hbegins _ _ hpart).solid.ws]
  exact h _ _ _ hpart hr

end Members

/-! ## Values -/

theorem created_iff {m o : Obj Value} : Created m o ↔ o = Obj.assign [] m :=
  ⟨fun h => h.unique (Listed.nil.assign m), fun h => h ▸ Listed.nil.assign m⟩

theorem foldl_push (a : List Value) (out : List Value) : a.foldl (fun a v => a ++ [v]) out = out ++ a := by
  induction a generalizing out with
  | nil => exact (append_nil out).symm
  | cons v a ih => rw [foldl_cons, ih, append_assoc, singleton_append]

/-- One level of the grammar of the parser. -/
abbrev Level (part : List Char → Value → Prop) : List Char → Value → Prop :=
  Layer RadixQuad F64.ofNumber Created part

variable {part : List Char → Value → Prop}

theorem literal_sound {word : List Char} {v x : Value} (h : literal word v s = .ok (x, r)) : s = word ++ r ∧ x = v := by
  unfold literal at h
  split_ifs at h with hword
  cases h
  obtain ⟨l, rfl⟩ := hword
  exact ⟨by rw [drop_left], rfl⟩

theorem literal_complete (word : List Char) (v : Value) : literal word v (word ++ r) = .ok (v, r) := by
  unfold literal
  rw [if_pos (prefix_append ..), drop_left]

theorem value_sound {d : ℕ} (h : Sound (value d) part) : Sound (value (d + 1)) (Level part) := by
  intro s x r hx
  cases s with
  | nil => cases hx
  | cons c s =>
    obtain ⟨w, hw, hs⟩ := eq_ws s
    unfold value at hx
    split_ifs at hx with hbrace hbracket hquote ht hf hn hnumber
    · split at hx
      · next l hl =>
        cases hx
        refine ⟨'\x7b' :: w ++ ['\x7d'], ?_, .emptyObject hw (created_iff.2 rfl)⟩
        rw [hbrace, hs, hl]
        simp
      · obtain ⟨⟨o, s₁⟩, ho, hx⟩ := bind_eq_ok.1 hx
        cases hx
        obtain ⟨t, m, hm, hparts, rfl⟩ := parts_sound (member_sound h) ho
        refine ⟨'\x7b' :: (w ++ t) ++ ['\x7d'], ?_, .object (separated_blank hw hparts) (created_iff.2 rfl)⟩
        rw [hbrace, hs, hm]
        simp
    · split at hx
      · next l hl =>
        cases hx
        refine ⟨'[' :: w ++ [']'], ?_, .emptyArray hw⟩
        rw [hbracket, hs, hl]
        simp
      · obtain ⟨⟨a, s₁⟩, ha, hx⟩ := bind_eq_ok.1 hx
        cases hx
        obtain ⟨t, xs, hm, hparts, rfl⟩ := parts_sound h ha
        rw [foldl_push, nil_append]
        refine ⟨'[' :: (w ++ t) ++ [']'], ?_, .array (separated_blank hw hparts)⟩
        rw [hbracket, hs, hm]
        simp
    · obtain ⟨⟨k, s₁⟩, hk, hx⟩ := bind_eq_ok.1 hx
      cases hx
      obtain ⟨t, ht, hstring⟩ := string_sound _ _ _ hk
      exact ⟨t, ht, .string hstring⟩
    · obtain ⟨heq, rfl⟩ := literal_sound hx
      exact ⟨_, heq, .true⟩
    · obtain ⟨heq, rfl⟩ := literal_sound hx
      exact ⟨_, heq, .false⟩
    · obtain ⟨heq, rfl⟩ := literal_sound hx
      exact ⟨_, heq, .null⟩
    · obtain ⟨t, ht, n, hread, rfl⟩ := number_sound _ _ _ hx
      exact ⟨t, ht, .number hread⟩

/-- The characters that a number begins with. -/
theorem readNumber_head {n : Number} (h : readNumber t = some n) :
    ∃ c l, t = c :: l ∧ (c = '-' ∨ c.isDigit = true) := by
  cases t with
  | nil => cases h
  | cons c l =>
    refine ⟨c, l, rfl, ?_⟩
    by_contra hno
    obtain ⟨hminus, hdigit⟩ := not_or.1 hno
    simp [readNumber, hminus, hdigit] at h

theorem isDigit_cases {c : Char} (h : c.isDigit = true) :
    c ∈ ['0', '1', '2', '3', '4', '5', '6', '7', '8', '9'] := by
  obtain ⟨h1, h2⟩ := isDigit_toNat h
  have hchar : c = Char.ofNat c.toNat := (Char.ofNat_toNat c).symm
  generalize c.toNat = n at *
  subst hchar
  interval_cases n <;> decide

/-- A number begins with a character that no other value begins with. -/
theorem number_begins {c : Char} (h : c = '-' ∨ c.isDigit = true) :
    isBlank c = false ∧ c ≠ ']' ∧ c ≠ '\x7d' ∧ c ≠ '\x7b' ∧ c ≠ '[' ∧ c ≠ '"' ∧ c ≠ 't' ∧ c ≠ 'f' ∧ c ≠ 'n' := by
  have hcases : c ∈ ['-', '0', '1', '2', '3', '4', '5', '6', '7', '8', '9'] :=
    mem_cons.2 (h.imp_right isDigit_cases)
  simp only [mem_cons, not_mem_nil, or_false] at hcases
  rcases hcases with rfl | rfl | rfl | rfl | rfl | rfl | rfl | rfl | rfl | rfl | rfl <;> decide

theorem level_begins {v : Value} (h : Level part t v) : Begins t := by
  cases h with
  | null => exact ⟨'n', _, rfl, rfl, by decide, by decide⟩
  | true => exact ⟨'t', _, rfl, rfl, by decide, by decide⟩
  | false => exact ⟨'f', _, rfl, rfl, by decide, by decide⟩
  | number h =>
    obtain ⟨c, l, rfl, hc⟩ := readNumber_head h
    obtain ⟨hblank, h1, h2, -⟩ := number_begins hc
    exact ⟨c, l, rfl, hblank, h1, h2⟩
  | string h => exact StringText.begins h
  | emptyArray | array => exact ⟨'[', _, rfl, rfl, by decide, by decide⟩
  | emptyObject | object => exact ⟨'\x7b', _, rfl, rfl, by decide, by decide⟩

theorem value_complete {d : ℕ} (h : Complete (value d) part) (hbegins : ∀ t v, part t v → Begins t) :
    Complete (value (d + 1)) (Level part) := by
  intro t v r hv hr
  cases hv with
  | null => exact literal_complete ['n', 'u', 'l', 'l'] .null
  | true => exact literal_complete ['t', 'r', 'u', 'e'] (.bool true)
  | false => exact literal_complete ['f', 'a', 'l', 's', 'e'] (.bool false)
  | number hread =>
    have hnumber := number_complete t _ r ⟨_, hread, rfl⟩ hr
    obtain ⟨c, l, rfl, hc⟩ := readNumber_head hread
    obtain ⟨-, -, -, h1, h2, h3, h4, h5, h6⟩ := number_begins hc
    change value (d + 1) (c :: (l ++ r)) = _
    unfold value
    rw [if_neg h1, if_neg h2, if_neg h3, if_neg h4, if_neg h5, if_neg h6, if_pos hc]
    exact hnumber
  | string hstring =>
    have hk := string_complete t _ r hstring hr
    obtain ⟨body, l, rfl, -⟩ := hstring
    change value (d + 1) ('"' :: (body ++ ['"'] ++ r)) = _
    unfold value
    rw [if_neg (by decide), if_neg (by decide), if_pos rfl]
    exact bind_eq_ok.2 ⟨_, hk, rfl⟩
  | @emptyArray w hw =>
    have htext : '[' :: w ++ [']'] ++ r = '[' :: (w ++ ']' :: r) := by simp
    rw [htext]
    unfold value
    rw [if_neg (by decide), if_pos rfl, ws_ends hw rfl]
    rfl
  | @array t a hparts =>
    obtain ⟨t', hparts', ⟨c, l, rfl, -, hc, -⟩, hws⟩ := separated_ws hbegins hparts
    have htext : '[' :: t ++ [']'] ++ r = '[' :: (t ++ ']' :: r) := by simp
    have hlen := hparts'.length_le
    rw [htext]
    unfold value
    rw [if_neg (by decide), if_pos rfl, hws]
    split
    · next heq => exact absurd (List.cons.inj heq).1 hc
    · refine bind_eq_ok.2 ⟨(a, r), ?_, rfl⟩
      rw [parts_complete h hbegins rfl rfl (by decide) hparts' ?_ [], foldl_push, nil_append]
      simp only [length_append, length_cons] at hlen ⊢
      omega
  | @emptyObject w o hw ho =>
    have htext : '\x7b' :: w ++ ['\x7d'] ++ r = '\x7b' :: (w ++ '\x7d' :: r) := by simp
    rw [htext, created_iff.1 ho]
    unfold value
    rw [if_pos rfl, ws_ends hw rfl]
    rfl
  | @object t m o hparts ho =>
    obtain ⟨t', hparts', ⟨c, l, rfl, -, -, hc⟩, hws⟩ :=
      separated_ws (fun _ _ hm => MemberText.begins hm) hparts
    have htext : '\x7b' :: t ++ ['\x7d'] ++ r = '\x7b' :: (t ++ '\x7d' :: r) := by simp
    have hlen := hparts'.length_le
    rw [htext, created_iff.1 ho]
    unfold value
    rw [if_pos rfl, hws]
    split
    · next heq => exact absurd (List.cons.inj heq).1 hc
    · refine bind_eq_ok.2 ⟨(Obj.assign [] m, r), ?_, rfl⟩
      refine parts_complete (member_complete h hbegins) (fun _ _ hm => MemberText.begins hm) rfl rfl (by decide)
        hparts' ?_ []
      simp only [length_append, length_cons] at hlen ⊢
      omega

/-- The induction is on the levels that there may be. -/
theorem value_levels (d : ℕ) :
    Sound (value (d + 1)) (JsonGrammar.Value RadixQuad F64.ofNumber Created d) ∧
    Complete (value (d + 1)) (JsonGrammar.Value RadixQuad F64.ofNumber Created d) := by
  induction d with
  | zero =>
    have hnone : Sound (value 0) fun _ _ => False := nofun
    exact ⟨value_sound hnone, value_complete nofun nofun⟩
  | succ d ih =>
    refine ⟨value_sound ih.1, value_complete ih.2 fun t v h => ?_⟩
    cases d with
    | zero | succ => exact level_begins h

theorem value_begins {d : ℕ} {v : Value} (h : JsonGrammar.Value RadixQuad F64.ofNumber Created d t v) : Begins t := by
  cases d with
  | zero | succ => exact level_begins h

/-- The parser accepts the documents in which a plus sign may stand for the first of four digits. -/
theorem parse_iff {text : String} {v : Value} : parse text = .ok v ↔ Text RadixQuad text.toList v := by
  obtain ⟨hsound, hcomplete⟩ := value_levels MAX_DEPTH
  constructor
  · intro h
    obtain ⟨⟨v', s⟩, hvalue, h⟩ := bind_eq_ok.1 h
    obtain ⟨w, hw, htext⟩ := eq_ws text.toList
    obtain ⟨w', hw', hs⟩ := eq_ws s
    obtain ⟨t, ht, hv⟩ := hsound _ _ _ hvalue
    dsimp only at h
    split at h
    · next hnil =>
      cases h
      rw [hnil, append_nil] at hs
      exact ⟨w, t, w', hw, hv, hw', by rw [htext, ht, hs, append_assoc]⟩
    · cases h
  · rintro ⟨w, t, w', hw, hv, hw', htext⟩
    have hends : Ends w' := by
      have := ends_append (r := []) hw' nofun
      rwa [append_nil] at this
    have hblank : ws w' = [] := dropWhile_eq_nil_iff.2 hw'
    refine bind_eq_ok.2 ⟨(v, w'), ?_, ?_⟩
    · rw [htext, append_assoc, ws_append hw, (value_begins hv).solid.ws]
      exact hcomplete _ _ _ hv hends
    · dsimp only
      rw [hblank]
      rfl

end Polis.Js
