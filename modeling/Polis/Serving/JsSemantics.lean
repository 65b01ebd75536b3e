import Polis.Serving.JsValues

/-!
# JSON and objects of the API

What `stringify` writes of a value is read back as the value. A text is read as the grammar says unless an
escape of it has a plus sign for its first digit; such a text is no JSON text, and it is accepted.
-/

namespace Polis.Js

open JsonText JsonGrammar Binary64 List

/-! ## Values that are written -/

/-- A value with finite numbers, whose objects are what calls make of the empty one. -/
inductive Legal : Value → Prop
  | null : Legal .null
  | bool (b : Bool) : Legal (.bool b)
  | number (x : Double) : Legal (.number (.finite x))
  | string (s : String) : Legal (.string s)
  | array {a : List Value} : (∀ v ∈ a, Legal v) → Legal (.array a)
  | object (ops : List (Op Value)) :
      (∀ p ∈ ops.foldl Op.apply [], Legal p.2) → Legal (.object (ops.foldl Op.apply []))

section Nesting

variable {ν : Type}

mutual

/-- In how many arrays and objects a value of the tree lies at most. -/
def nesting : Json ν → ℕ
  | .array a => nestingItems a
  | .object m => nestingMembers m
  | _ => 0

def nestingItems : List (Json ν) → ℕ
  | [] => 0
  | v :: a => max (nesting v + 1) (nestingItems a)

def nestingMembers : List (String × Json ν) → ℕ
  | [] => 0
  | (_, v) :: m => max (nesting v + 1) (nestingMembers m)

end

theorem nesting_lt_of_mem {a : List (Json ν)} {v : Json ν} (hv : v ∈ a) : nesting v < nesting (.array a) := by
  rw [nesting]
  induction a with
  | nil => cases hv
  | cons w a ih =>
    rw [nestingItems]
    rcases mem_cons.1 hv with rfl | hv
    · exact lt_max_of_lt_left (Nat.lt_succ_self _)
    · exact lt_max_of_lt_right (ih hv)

theorem nesting_lt_of_member {m : List (String × Json ν)} {p : String × Json ν} (hp : p ∈ m) :
    nesting p.2 < nesting (.object m) := by
  rw [nesting]
  induction m with
  | nil => cases hp
  | cons q m ih =>
    obtain ⟨k, w⟩ := q
    rw [nestingMembers]
    rcases mem_cons.1 hp with rfl | hp
    · exact lt_max_of_lt_left (Nat.lt_succ_self _)
    · exact lt_max_of_lt_right (ih hp)

end Nesting

/-- The shortest digits are read as the number. -/
theorem readNumber_format (x : Double) : ∃ n, readNumber (format x) = some n ∧ F64.ofNumber n = .finite x := by
  have hround : ∀ {n : Number}, nearest n.value = some x.value → F64.ofNumber n = .finite x := by
    intro n hn
    have hdouble : Double.round n.value = some x := by
      unfold Double.round
      split
      · next y hy =>
        cases hy.symm.trans hn
        rfl
      · next hnone => rw [hnone] at hn; cases hn
    rw [F64.ofNumber, hdouble]
  by_cases h0 : x.value = 0
  · refine ⟨⟨false, ['0'], [], none⟩, by rw [format, if_pos h0]; rfl, hround ?_⟩
    have hzero : Number.value ⟨false, ['0'], [], none⟩ = 0 := by
      simp [Number.value, digitsValue, Nat.ofDigitChars_cons]
    rw [hzero, ← h0]
    exact x.isDouble.nearest
  · have hpos : 0 < |x.value| := abs_pos.2 h0
    have hspec := shortest_spec x.isDouble.abs hpos (exists_candidate x.isDouble.abs hpos)
    have hdigits : x.digits = shortest |x.value| (exists_candidate x.isDouble.abs hpos) := dif_pos hpos
    rw [← hdigits] at hspec
    obtain ⟨n, hread, hvalue⟩ := Wire.readNumber_textOf (decide (x.value < 0)) hspec.pos x.digits.2
    refine ⟨n, ?_, hround ?_⟩
    · rw [format, if_neg h0, ← hread]
      simp only [decide_eq_true_eq]
    · have hrounds : nearest (x.digits.1 * 10 ^ x.digits.2) = some |x.value| := hspec.rounds
      rw [hvalue]
      simp only [decide_eq_true_eq]
      split
      · next hneg => rw [neg_one_mul, nearest_neg, hrounds, Option.map_some, abs_of_neg hneg, neg_neg]
      · next hpos => rw [one_mul, hrounds, abs_of_nonneg (not_lt.1 hpos)]

/-- The induction is on the value; each of its levels takes one from the depth. -/
theorem text_value {v : Value} (h : Legal v) {d : ℕ} (hd : nesting v ≤ d) :
    JsonGrammar.Value Quad F64.ofNumber Created d (Json.text write_number v) v := by
  have level : ∀ {d : ℕ} {t : List Char} {v : Value}, (∀ part, Layer Quad F64.ofNumber Created part t v) →
      JsonGrammar.Value Quad F64.ofNumber Created d t v := by
    intro d t v hlayer
    cases d with
    | zero => exact hlayer _
    | succ d => exact hlayer _
  induction h generalizing d with
  | null => exact level fun _ => .null
  | bool b => cases b with
      | true => exact level fun _ => .true
      | false => exact level fun _ => .false
  | number x =>
    obtain ⟨n, hread, hx⟩ := readNumber_format x
    rw [← hx]
    have htext : Json.text write_number (.number (.finite x)) = format x := rfl
    rw [hx, htext]
    rw [← hx]
    exact level fun _ => .number hread
  | string s => exact level fun _ => .string (stringText_quote s)
  | @array a ha ih =>
    rw [Json.text, Json.textItems_eq]
    by_cases hne : a = []
    · subst hne
      exact level fun _ => .emptyArray blank_nil
    · obtain ⟨v, hv⟩ := exists_mem_of_ne_nil a hne
      obtain ⟨d, rfl⟩ : ∃ m, d = m + 1 := ⟨d - 1, by have := nesting_lt_of_mem hv; omega⟩
      refine Layer.array (separated_joinComma hne fun v hv => .of (ih v hv ?_))
      have := nesting_lt_of_mem hv
      omega
  | object ops hm ih =>
    have hlisted := (listed_run ops).self
    generalize ops.foldl Op.apply [] = m at *
    have hcreated : Created m m := by
      rw [Created, putAll_nil hlisted.nodup]
      exact hlisted
    rw [Json.text, Json.textMembers_eq]
    by_cases hne : m = []
    · subst hne
      exact level fun _ => .emptyObject blank_nil hcreated
    · obtain ⟨p, hp⟩ := exists_mem_of_ne_nil m hne
      obtain ⟨d, rfl⟩ : ∃ n, d = n + 1 := ⟨d - 1, by have := nesting_lt_of_member hp; omega⟩
      refine Layer.object (separated_joinComma hne fun p hp => .of ?_) hcreated
      refine ⟨_, [], [], _, stringText_quote p.1, blank_nil, blank_nil, ih p hp ?_, by simp⟩
      have := nesting_lt_of_member hp
      omega

/-- What the grammar accepts, the parser accepts. -/
theorem Text.radix {t : List Char} {v : Value} (h : Text Quad t v) : Text RadixQuad t v :=
  h.mono fun _ _ _ hq => Quad.radix hq

theorem parse_stringify {v : Value} (h : Legal v) (hdepth : nesting v ≤ MAX_DEPTH) :
    parse (stringify v) = .ok v := by
  refine parse_iff.2 (Text.radix ?_)
  rw [stringify, String.toList_ofList]
  exact .of (text_value h hdepth)

/-! ## Plus signs -/

/-- The text is no JSON text, but it is one when a plus sign may be the first of the four characters after
`\u`. -/
def PlusEscaped (t : List Char) : Prop := (∃ v, Text RadixQuad t v) ∧ ¬∃ v, Text Quad t v

theorem follows_grammar_iff {text : String} :
    (∀ v, parse text = .ok v ↔ Text Quad text.toList v) ↔ ¬PlusEscaped text.toList := by
  constructor
  · rintro h ⟨⟨v, hv⟩, hno⟩
    exact hno ⟨v, (h v).1 (parse_iff.2 hv)⟩
  · intro h v
    refine ⟨fun hv => ?_, fun hv => parse_iff.2 hv.radix⟩
    obtain ⟨v', hv'⟩ : ∃ v', Text Quad text.toList v' := by
      by_contra hno
      exact h ⟨⟨v, parse_iff.1 hv⟩, hno⟩
    cases hv.symm.trans (parse_iff.2 hv'.radix)
    exact hv'

theorem not_plusEscaped {t : List Char} (h : ¬['\\', 'u', '+'] <:+: t) : ¬PlusEscaped t := by
  rintro ⟨⟨v, hv⟩, hno⟩
  refine hno ⟨v, hv.mono fun q n hq hradix => ⟨hradix.1, ?_⟩⟩
  have hvalue := hradix.2
  unfold from_str_radix at hvalue
  split at hvalue
  · next l => exact absurd (List.IsInfix.trans (prefix_append ['\\', 'u', '+'] l).isInfix hq) h
  · exact hvalue

/-- The texts of the grammar are read as their values, and no others, exactly when no plus sign makes a text
one; a text without `\u+` has none. What is written of a value with finite numbers, within the depth, is
read back. After any calls an object lists the dictionary that the calls create: its keys are distinct, the
array indices come first and ascend, and the other keys stand in the order of their creation. -/
theorem js_semantics (text : String) (v : Value) (ops : List (Op Value)) :
    ((∀ v, parse text = .ok v ↔ Text Quad text.toList v) ↔ ¬PlusEscaped text.toList) ∧
    (¬['\\', 'u', '+'] <:+: text.toList → ¬PlusEscaped text.toList) ∧
    (Legal v → nesting v ≤ MAX_DEPTH → parse (stringify v) = .ok v) ∧
    Listed (ops.foldl Op.create []) (ops.foldl Op.apply []) :=
  ⟨follows_grammar_iff, not_plusEscaped, parse_stringify, listed_run ops⟩

/-- An object with keys set out of order is read back from its text. -/
theorem js_semantics_object :
    parse (stringify (.object ([.set "b" .null, .set "1" (.bool true)].foldl Op.apply []))) =
      .ok (.object ([.set "b" .null, .set "1" (.bool true)].foldl Op.apply [])) := by
  have hentries : [.set "b" .null, .set "1" (.bool true)].foldl Op.apply [] =
      ([("1", .bool true), ("b", .null)] : Obj Value) := rfl
  refine (js_semantics "" _ []).2.2.1 (.object _ fun p hp => ?_) (by decide)
  rw [hentries] at hp
  rcases mem_cons.1 hp with rfl | hp
  · exact .bool true
  · cases mem_singleton.1 hp
    exact .null

/-- A string that begins with a plus sign in an escape is no JSON text. -/
theorem not_text_plus (l : List Char) : ¬∃ v, Text Quad ('"' :: '\\' :: 'u' :: '+' :: l) v := by
  rintro ⟨v, w, t, w', hw, hv, -, htext⟩
  have hnil : w = [] := by
    cases w with
    | nil => rfl
    | cons c w =>
      have hc := hw c mem_cons_self
      rw [append_assoc, cons_append] at htext
      rw [← (List.cons.inj htext).1] at hc
      cases hc
  subst hnil
  rw [nil_append] at htext
  have hlayer : Layer Quad F64.ofNumber Created (JsonGrammar.Value Quad F64.ofNumber Created 511) t v := hv
  have hhead : t.head? = some '"' := by
    obtain ⟨c, r, rfl, -⟩ := value_begins (hv.mono fun _ _ _ hq => Quad.radix hq)
    rw [(List.cons.inj htext).1]
    rfl
  cases hlayer with
  | number h =>
    obtain ⟨c, r, rfl, hc⟩ := readNumber_head h
    cases hhead
    exact absurd hc (by decide)
  | string h =>
    obtain ⟨body, pieces, rfl, hpieces, -⟩ := h
    simp only [cons_append, append_assoc, List.cons.injEq, true_and] at htext
    cases hpieces with
    | nil => cases htext
    | cons hp _ =>
      cases hp with
      | char hquote hbackslash _ => exact absurd (List.cons.inj htext).1.symm hbackslash
      | escape h =>
        have hu := (List.cons.inj (List.cons.inj htext).2).1
        rw [← hu] at h
        cases h
      | unit hq =>
        obtain ⟨hlen, hvalue⟩ := hq
        cases ‹List Char› with
        | nil => cases hlen
        | cons c q =>
          have hplus := (List.cons.inj (List.cons.inj (List.cons.inj htext).2).2).1
          rw [← hplus] at hvalue
          cases hvalue
  | _ => cases hhead

/-- The text `"\u+041"` is read as the string `A`. -/
theorem plus_sign_accepted : ¬∀ (text : String) (v : Value), parse text = .ok v ↔ Text Quad text.toList v := by
  intro h
  have hread : Text RadixQuad ['"', '\\', 'u', '+', '0', '4', '1', '"'] (.string "A") := by
    refine .of (Layer.string ⟨['\\', 'u', '+', '0', '4', '1'], [.unit 65], rfl, ?_, rfl⟩)
    exact .cons (.unit (q := ['+', '0', '4', '1']) ⟨rfl, rfl⟩) .nil
  have hparse : parse (.ofList ['"', '\\', 'u', '+', '0', '4', '1', '"']) = .ok (.string "A") :=
    parse_iff.2 (by rw [String.toList_ofList]; exact hread)
  have htext := (h _ _).1 hparse
  rw [String.toList_ofList] at htext
  exact not_text_plus _ ⟨_, htext⟩

end Polis.Js
