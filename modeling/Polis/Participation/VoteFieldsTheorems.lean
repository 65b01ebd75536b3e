import Polis.Participation.VoteFields

/-!
# Rust and Node read the fields of a vote alike

Each reader of the contract is the parser of its middleware, so that the two chains go on together, with equal
values, or end at the same field.

Reference: `queue-rs/polis-contracts/src/post_votes.rs`, `server/src/utils/parameter.ts`, `server/app.ts`.
-/

namespace Polis.VoteFields

open JsonText Binary64 Js Participation

/-! ## The statement -/

/-- The number of a token is finite as a double. -/
def FiniteToken (v : Option Value) : Prop := ∀ n, v = some (.number n) → (Double.round n.value).isSome

/-- Every number token among the fields is finite as a double. -/
structure Request.Finite (r : Request) : Prop where
  tid : FiniteToken r.tid
  vote : FiniteToken r.vote
  starred : FiniteToken r.starred
  high_priority : FiniteToken r.high_priority

/-- What Unicode documents of lowering a text: of ASCII letters, each by itself. What is lowered to an ASCII text has
been one, but for a sign of `k` and a dotted `i`. -/
def Lowers (lower : String → String) : Prop :=
  ∀ s w : String, (∀ c ∈ w.toList, c.toNat < 128 ∧ c ≠ 'i' ∧ c ≠ 'k') → (lower s = w ↔ s.toLower = w)

/-- The two sides have equal values, the vote as the choice of its number. -/
structure SameFields (f : ParsedFields) (p : Parameters) : Prop where
  tid : p.tid = some f.tid
  vote : ∃ x, p.vote = some (.finite x) ∧ x.value = f.vote.wire
  starred : p.starred = f.starred
  high_priority : p.high_priority = some f.high_priority
  lang : p.lang = f.lang

/-- Both go on with related results, or both end at one field. -/
def Agree {α β : Type} (R : α → β → Prop) : Except String α → Except Failure β → Prop
  | .ok a, .ok b => R a b
  | .error name, .error failure => failure.name = name
  | _, _ => False

theorem Agree.bind {α β γ δ : Type} {R : α → β → Prop} {S : γ → δ → Prop} {x : Except String α}
    {y : Except Failure β} {f : α → Except String γ} {g : β → Except Failure δ} (h : Agree R x y)
    (hfg : ∀ a b, R a b → Agree S (f a) (g b)) : Agree S (x >>= f) (y >>= g) := by
  cases x with
  | error name =>
    cases y with
    | error failure => exact h
    | ok b => exact h.elim
  | ok a =>
    cases y with
    | error failure => exact h.elim
    | ok b => exact hfg a b h

/-! ## Numbers -/

/-- A token is read as the double that is nearest to it. -/
theorem as_f64_parse_number {n : Number} {x : Double} (h : Double.round n.value = some x) :
    (parse_number n).bind as_f64 = some x := by
  unfold parse_number
  dsimp only
  split
  · next hpos =>
      obtain ⟨hfrac, hexp, hneg, -⟩ := hpos
      have hvalue : n.value = (digitsValue n.whole : ℚ) := by
        simp [Number.value, hfrac, hexp, hneg]
      rw [Option.bind_some, as_f64, ← hvalue, h]
  · split
    · next hpos =>
        obtain ⟨hfrac, hexp, hneg, -⟩ := hpos
        have hvalue : n.value = ((-(digitsValue n.whole : ℤ) : ℤ) : ℚ) := by
          simp [Number.value, hfrac, hexp, hneg]
        rw [Option.bind_some, as_f64, ← hvalue, h]
    · rw [h]
      rfl

/-! ## White space -/

theorem ecma_space_eq (c : Char) : ecma_space c = isWhiteSpace c := by
  rw [Bool.eq_iff_iff]
  simp only [ecma_space, isWhiteSpace, Bool.or_eq_true, Bool.and_eq_true, decide_eq_true_eq, List.mem_cons,
    List.not_mem_nil, or_false]
  omega

/-- A text is blank when nothing is left of it at the front. -/
theorem trim_eq_nil {s : List Char} : trim s = [] ↔ s.dropWhile isWhiteSpace = [] := by
  rw [trim, List.rdropWhile_eq_nil_iff]
  constructor
  · intro h
    cases hs : s.dropWhile isWhiteSpace with
    | nil => rfl
    | cons c l =>
      have hhead : isWhiteSpace c = false := by
        have := List.head_dropWhile_not (l := s) isWhiteSpace (by simp [hs])
        simpa [hs] using this
      rw [h c (by simp [hs])] at hhead
      cases hhead
  · intro h c hc
    rw [h] at hc
    cases hc

/-! ## Integers -/

theorem take_length_takeWhile (s : List Char) :
    s.take (s.takeWhile Char.isDigit).length = s.takeWhile Char.isDigit :=
  (List.prefix_iff_eq_take.1 (List.takeWhile_prefix _)).symm

/-- What `parseInt` gives, if it is a number. -/
def number? : F64 → Option F64
  | .nan => none
  | x => some x

theorem number?_signed (neg : Bool) (digits : List Char) :
    number? (signed neg digits) = some (signed neg digits) := by
  unfold signed F64.ofNumber
  split <;> rfl

/-- The digits after a sign: counted and cut in Rust, matched in Node. -/
theorem scan_eq (t : List Char) :
    (let sign := if t.head? = some '+' ∨ t.head? = some '-' then 1 else 0
     let digits := ((t.drop sign).takeWhile Char.isDigit).length
     if digits = 0 then none else parse_signed (t.take (sign + digits))) =
    number? (match (splitSign t).2.takeWhile Char.isDigit with
     | [] => .nan
     | digits => signed (splitSign t).1 digits) := by
  have hall : ∀ l : List Char, (l.takeWhile Char.isDigit).all Char.isDigit = true := fun l => List.all_takeWhile
  have hcut : ∀ (neg : Bool) (l : List Char), (if (l.takeWhile Char.isDigit).length = 0 then none else
      if l.takeWhile Char.isDigit ≠ [] ∧ (l.takeWhile Char.isDigit).all Char.isDigit then
        some (signed neg (l.takeWhile Char.isDigit)) else none) =
      number? (match l.takeWhile Char.isDigit with
        | [] => .nan
        | digits => signed neg digits) := fun neg l => by
    have hdigits := hall l
    cases hl : l.takeWhile Char.isDigit with
    | nil => rfl
    | cons c d =>
      rw [hl] at hdigits
      rw [if_neg (by simp), if_pos ⟨by simp, hdigits⟩]
      exact (number?_signed neg (c :: d)).symm
  by_cases hminus : ∃ r, t = '-' :: r
  · obtain ⟨r, rfl⟩ := hminus
    refine Eq.trans ?_ (hcut true r)
    simp [Nat.add_comm 1, parse_signed, take_length_takeWhile]
  by_cases hplus : ∃ r, t = '+' :: r
  · obtain ⟨r, rfl⟩ := hplus
    refine Eq.trans ?_ (hcut false r)
    simp [Nat.add_comm 1, parse_signed, take_length_takeWhile]
  have hsign : ¬(t.head? = some '+' ∨ t.head? = some '-') := by
    rintro (h | h)
    · obtain ⟨r, rfl⟩ := List.head?_eq_some_iff.1 h
      exact hplus ⟨r, rfl⟩
    · obtain ⟨r, rfl⟩ := List.head?_eq_some_iff.1 h
      exact hminus ⟨r, rfl⟩
  have hsigned : ∀ d : List Char, d <+: t → parse_signed d =
      if d ≠ [] ∧ d.all Char.isDigit then some (signed false d) else none := fun d hd => by
    obtain ⟨r, rfl⟩ := hd
    unfold parse_signed
    split
    · next l => exact absurd ⟨l ++ r, rfl⟩ hplus
    · next l => exact absurd ⟨l ++ r, rfl⟩ hminus
    · rfl
  simp only [if_neg hsign, List.drop_zero, Nat.zero_add, take_length_takeWhile,
    hsigned _ (List.takeWhile_prefix _)]
  have hnone : splitSign t = (false, t) := by
    unfold splitSign
    split
    · next r => exact absurd ⟨r, rfl⟩ hminus
    · next r => exact absurd ⟨r, rfl⟩ hplus
    · rfl
  rw [hnone]
  exact hcut false t

theorem integer_eq_getInt {v : Value} (h : FiniteToken (some v)) : integer v = getInt v := by
  cases v with
  | number n =>
    obtain ⟨x, hx⟩ := Option.isSome_iff_exists.1 (h n rfl)
    have hnumber : F64.ofNumber n = .finite x := by simp [F64.ofNumber, hx]
    simp only [integer, as_f64_parse_number hx, getInt, integerOrUndefined, hnumber, Option.map_some,
      Option.filter_some]
  | string s =>
    have hspace : ecma_space = isWhiteSpace := funext ecma_space_eq
    rw [integer, hspace, getInt, integerOrUndefined]
    refine (scan_eq (s.toList.dropWhile isWhiteSpace)).trans ?_
    change number? (parseInt s.toList) = _
    by_cases hblank : trim s.toList = []
    · rw [if_neg (not_not.2 hblank), parseInt, trim_eq_nil.1 hblank]
      rfl
    · rw [if_pos hblank]
      unfold number?
      split <;> simp_all
  | _ => rfl

/-! ## Booleans and texts -/

theorem Lowers.iff {lower lower' : String → String} (h : Lowers lower) (h' : Lowers lower') (s : String) {w : String}
    (hw : ∀ c ∈ w.toList, c.toNat < 128 ∧ c ≠ 'i' ∧ c ≠ 'k') : lower s = w ↔ lower' s = w :=
  (h s w hw).trans (h' s w hw).symm

theorem boolean_eq_getBool {to_lowercase toLowerCase : String → String} (hto : Lowers to_lowercase)
    (hTo : Lowers toLowerCase) {v : Value} (h : FiniteToken (some v)) :
    boolean to_lowercase v = getBool toLowerCase v := by
  cases v with
  | number n =>
    obtain ⟨x, hx⟩ := Option.isSome_iff_exists.1 (h n rfl)
    have hnumber : F64.ofNumber n = .finite x := by simp [F64.ofNumber, hx]
    simp only [boolean, as_f64_parse_number hx, getBool, hnumber, Option.map_some]
    split <;> simp_all
  | string s =>
    have hword : ∀ w ∈ ["t", "true", "on", "1", "f", "false", "off", "0"],
        (to_lowercase s = w ↔ toLowerCase s = w) := fun w hw =>
      hto.iff hTo s ((by simp : ∀ w ∈ ["t", "true", "on", "1", "f", "false", "off", "0"],
        ∀ c ∈ w.toList, c.toNat < 128 ∧ c ≠ 'i' ∧ c ≠ 'k') w hw)
    simp only [List.forall_mem_cons] at hword
    obtain ⟨ht, htrue, hon, h1, hf, hfalse, hoff, h0, -⟩ := hword
    simp only [boolean, getBool, ht, htrue, hon, h1, hf, hfalse, hoff, h0]
  | _ => rfl

theorem string_eq_getStringLimitLength (max : ℕ) (v : Value) : string max v = getStringLimitLength 1 max v := by
  cases v with
  | string s =>
    rw [string, getStringLimitLength]
    by_cases hlong : utf16Length s ≤ max
    · rw [if_pos hlong, if_neg (by omega), if_neg (by omega)]
    · rw [if_neg hlong, if_pos (by omega)]
  | _ => rfl

/-! ## Votes -/

/-- What is left of the numbers once they are integers. -/
def Whole : F64 → Prop
  | .finite x => ∃ m : ℤ, x.value = m
  | .infinity _ => True
  | .nan => False

theorem whole_signed (neg : Bool) (digits : List Char) : Whole (signed neg digits) := by
  have hvalue : Number.value ⟨neg, digits, [], none⟩ =
      (((if neg then -1 else 1) * digitsValue digits : ℤ) : ℚ) := by
    cases neg <;> simp [Number.value]
  unfold signed F64.ofNumber
  rw [hvalue]
  split
  · next x hx => exact nearest_intCast (Double.value_of_round hx)
  · trivial

theorem whole_getInt {v : Value} {x : F64} (h : getInt v = some x) : Whole x := by
  cases v with
  | number n =>
    rw [getInt, integerOrUndefined] at h
    split at h
    · next hinteger =>
        obtain rfl := Option.some.inj h
        cases hx : F64.ofNumber n with
        | finite x =>
          rw [hx] at hinteger
          exact ⟨x.value.num, (Rat.den_eq_one_iff _).1 (of_decide_eq_true hinteger) |>.symm⟩
        | infinity neg => trivial
        | nan =>
          rw [hx] at hinteger
          cases hinteger
    · cases h
  | string s =>
    have hparsed : parseInt s.toList = .nan ∨ ∃ neg digits, parseInt s.toList = signed neg digits := by
      unfold parseInt
      dsimp only
      split
      · exact .inl rfl
      · exact .inr ⟨_, _, rfl⟩
    rw [getInt, integerOrUndefined] at h
    split at h
    · rcases hparsed with hnan | ⟨neg, digits, hsigned⟩
      · rw [hnan] at h
        cases h
      · rw [hsigned] at h
        have hx := number?_signed neg digits
        unfold number? at hx
        rw [← Option.some.inj (hx.symm.trans h)]
        exact whole_signed neg digits
    · cases h
  | _ => cases h

/-- Of the whole numbers the range leaves those that name a choice. -/
theorem choice_eq_some_iff {x : F64} (h : Whole x) {vote : VoteChoice} :
    choice x = some vote ↔ ∃ y, x = .finite y ∧ y.value = vote.wire := by
  cases x with
  | finite y =>
    obtain ⟨m, hm⟩ := h
    simp only [choice, equals, hm, F64.finite.injEq, exists_eq_left', decide_eq_true_eq, Int.cast_inj,
      VoteChoice.wire]
    split_ifs <;> cases vote <;> simp <;> omega
  | infinity neg => simp [choice, equals]
  | nan => exact h.elim

theorem in_range_iff {x : F64} (h : Whole x) :
    (!(below x WIRE_VOTE_MIN || above x WIRE_VOTE_MAX)) = (choice x).isSome := by
  have hmin : WIRE_VOTE_MIN = -1 := by decide
  have hmax : WIRE_VOTE_MAX = 1 := by decide
  rw [hmin, hmax]
  cases x with
  | finite y =>
    obtain ⟨m, hm⟩ := h
    have hcast : ((m : ℚ) < ((-1 : ℤ) : ℚ) ↔ m < -1) ∧ (((1 : ℤ) : ℚ) < m ↔ 1 < m) :=
      ⟨Int.cast_lt, Int.cast_lt⟩
    simp only [below, above, choice, equals, hm, hcast.1, hcast.2, VoteChoice.wire, decide_eq_true_eq, Int.cast_inj]
    rw [Bool.eq_iff_iff]
    simp only [Bool.not_eq_true', Bool.or_eq_false_iff, decide_eq_false_iff_not]
    split_ifs <;> simp <;> omega
  | infinity neg => cases neg <;> rfl
  | nan => exact h.elim

/-! ## Middlewares -/

theorem required_agree {α : Type} (read read' : Value → Option α) (name : String) (v : Option Value)
    (hnull : read .null = none) (h : ∀ w, v = some w → read w = read' w) :
    Agree (fun a b => b = some a) (required read name v) (need name read' v) := by
  unfold required need buildCallback
  cases v with
  | none => rfl
  | some w =>
    rw [Option.bind_some]
    split
    · next hw => cases hw
    · next hw =>
        cases hw
        rw [hnull]
        rfl
    · next u hne hw =>
        cases hw
        rw [h w rfl]
        cases read' w <;> rfl

theorem optional_agree {α : Type} {read read' : Value → Option α} (name : String) (v : Option Value)
    (defaultVal : Option α) (h : ∀ w, v = some w → read w = read' w) :
    Agree (fun a b => b = a.or defaultVal) (optional read name v) (want name read' defaultVal v) := by
  unfold optional want buildCallback
  split
  · simp [Agree]
  · simp [Agree]
  · next w hne =>
      rw [h w rfl]
      cases read' w with
      | some a => simp [Agree, ok_or]
      | none => rfl

/-- The vote is read in two steps in Rust and in one in Node. -/
theorem vote_agree (v : Option Value) (h : FiniteToken v) :
    Agree (fun (vote : VoteChoice) p => ∃ x, p = some (.finite x) ∧ x.value = (vote.wire : ℚ))
      (required integer "vote" v >>= fun raw => ok_or "vote" (choice raw))
      (need "vote" (getIntInRange WIRE_VOTE_MIN WIRE_VOTE_MAX) v) := by
  unfold required need buildCallback
  split
  · rfl
  · rfl
  · next w hne =>
      rw [Option.bind_some, integer_eq_getInt h, getIntInRange]
      cases hget : getInt w with
      | none => rfl
      | some raw =>
        have hwhole := whole_getInt hget
        rw [Option.filter_some, in_range_iff hwhole]
        cases hchoice : choice raw with
        | none => simp [Agree, ok_or, bind, Except.bind, hchoice]
        | some vote =>
          obtain ⟨y, rfl, hy⟩ := (choice_eq_some_iff hwhole).1 hchoice
          simp [Agree, ok_or, bind, Except.bind, hchoice, hy]

/-! ## The result -/

theorem parse_fields_agree {to_lowercase toLowerCase : String → String} (hto : Lowers to_lowercase)
    (hTo : Lowers toLowerCase) {r : Request} (h : r.Finite) :
    Agree SameFields (parse_fields to_lowercase r) (post_votes toLowerCase r) := by
  have htid := required_agree integer getInt "tid" r.tid rfl fun w hw =>
    integer_eq_getInt (hw ▸ h.tid)
  have hbool : ∀ name v defaultVal, FiniteToken v →
      Agree (fun a b => b = a.or defaultVal) (optional (boolean to_lowercase) name v)
        (want name (getBool toLowerCase) defaultVal v) := fun name v defaultVal hv =>
    optional_agree name v defaultVal fun w hw => boolean_eq_getBool hto hTo (hw ▸ hv)
  have hlang := optional_agree "lang" r.lang none fun w _ => string_eq_getStringLimitLength 10 w
  refine htid.bind fun tid tid' htid => ?_
  rw [← bind_assoc]
  refine (vote_agree r.vote h.vote).bind fun vote vote' hvote => ?_
  refine (hbool "starred" r.starred none h.starred).bind fun starred starred' hstarred => ?_
  refine (hbool "high_priority" r.high_priority (some false) h.high_priority).bind
    fun high_priority high_priority' hpriority => ?_
  refine hlang.bind fun lang lang' hlang => ?_
  refine ⟨htid, hvote, by simpa using hstarred, ?_, by simpa using hlang⟩
  rw [hpriority]
  cases high_priority <;> rfl

/-- Rust accepts the fields exactly when all the middlewares do, with equal values, and names the first field
whose middleware fails. -/
theorem parse_fields_iff {to_lowercase toLowerCase : String → String} (hto : Lowers to_lowercase)
    (hTo : Lowers toLowerCase) {r : Request} (h : r.Finite) :
    ((∃ f, parse_fields to_lowercase r = .ok f) ↔ ∃ p, post_votes toLowerCase r = .ok p) ∧
    (∀ f p, parse_fields to_lowercase r = .ok f → post_votes toLowerCase r = .ok p → SameFields f p) ∧
    ∀ name, parse_fields to_lowercase r = .error name ↔ ∃ code, post_votes toLowerCase r = .error ⟨name, code⟩ := by
  have hagree := parse_fields_agree hto hTo h
  cases hrust : parse_fields to_lowercase r with
  | ok f =>
    cases hnode : post_votes toLowerCase r with
    | ok p =>
      rw [hrust, hnode] at hagree
      refine ⟨⟨fun _ => ⟨p, rfl⟩, fun _ => ⟨f, rfl⟩⟩, ?_, ?_⟩
      · rintro _ _ ⟨⟩ ⟨⟩
        exact hagree
      · simp
    | error failure =>
      rw [hrust, hnode] at hagree
      exact hagree.elim
  | error name =>
    cases hnode : post_votes toLowerCase r with
    | ok p =>
      rw [hrust, hnode] at hagree
      exact hagree.elim
    | error failure =>
      rw [hrust, hnode] at hagree
      obtain rfl : failure.name = name := hagree
      refine ⟨by simp, by simp, fun name' => ?_⟩
      constructor
      · rintro ⟨⟩
        exact ⟨failure.code, rfl⟩
      · rintro ⟨code, heq⟩
        rw [Except.error.inj heq]

private theorem toLower_lowers : Lowers String.toLower := fun _ _ _ => Iff.rfl

private def agreeing : Request :=
  ⟨some (.string " 7"), some (.number ⟨true, ['1'], [], none⟩), some (.string "ON"), none, some .null⟩

private theorem agreeing_finite : agreeing.Finite where
  tid := fun _ hn => nomatch hn
  vote := fun n hn => by
    obtain rfl : ⟨true, ['1'], [], none⟩ = n := by simpa [agreeing] using hn
    have hvalue : Number.value ⟨true, ['1'], [], none⟩ = -((1 : ℕ) : ℚ) := by
      simp [Number.value, digitsValue, Nat.ofDigitChars_cons]
    rw [hvalue, Double.round_of_isDouble (isDouble_natCast (by norm_num)).neg]
    rfl
  starred := fun _ hn => nomatch hn
  high_priority := fun _ hn => nomatch hn

theorem parse_fields_iff_agreeing :
    (∃ f, parse_fields String.toLower agreeing = .ok f) ↔ ∃ p, post_votes String.toLower agreeing = .ok p :=
  (parse_fields_iff toLower_lowers toLower_lowers agreeing_finite).1

end Polis.VoteFields
