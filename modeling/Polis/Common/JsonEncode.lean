import Polis.Common.JsonText

/-!
# Encoded values read back

The text that `Json.text` writes of a value has exactly the tokens of the value, and they parse to its tree.
A writer of numbers says with `Spelled` which number its text is.
-/

namespace Polis.JsonText

open List

variable {ν : Type*}

/-! ## The tree of a value -/

/-- A character as the escapes of a string leave it. -/
def piece (c : Char) : Piece :=
  if c = Char.ofNat 8 ∨ c = Char.ofNat 9 ∨ c = Char.ofNat 10 ∨ c = Char.ofNat 12 ∨ c = Char.ofNat 13 then
    .char c
  else if c.toNat < 32 then .unit c.toNat else .char c

def pieces (s : String) : Str := s.toList.map piece

section Tree

variable (spell : ν → Number)

mutual

/-- The tree that the text of a value parses to. -/
def tree : Json ν → Tree
  | .null => .null
  | .bool b => .bool b
  | .number n => .number (spell n)
  | .string s => .string (pieces s)
  | .array a => .array (treeItems a)
  | .object m => .object (treeMembers m)

def treeItems : List (Json ν) → List Tree
  | [] => []
  | v :: a => tree v :: treeItems a

def treeMembers : List (String × Json ν) → List (Str × Tree)
  | [] => []
  | (k, v) :: m => (pieces k, tree v) :: treeMembers m

end

@[simp] theorem treeItems_eq (a : List (Json ν)) : treeItems spell a = a.map (tree spell) := by
  induction a with
  | nil => rfl
  | cons v a ih => rw [treeItems, ih, map_cons]

@[simp] theorem treeMembers_eq (m : List (String × Json ν)) :
    treeMembers spell m = m.map fun p => (pieces p.1, tree spell p.2) := by
  induction m with
  | nil => rfl
  | cons p m ih => rw [treeMembers, ih, map_cons]

/-- The parts with commas between them. -/
def joinTokens : List (List Token) → List Token
  | [] => []
  | t :: ts => t ++ ts.flatMap (.punct ',' :: ·)

mutual

/-- The tokens of a value. -/
def tokens : Json ν → List Token
  | .null => [.null]
  | .bool b => [.bool b]
  | .number n => [.number (spell n)]
  | .string s => [.string (pieces s)]
  | .array a => .punct '[' :: joinTokens (tokensItems a) ++ [.punct ']']
  | .object m => .punct '\x7b' :: joinTokens (tokensMembers m) ++ [.punct '\x7d']

def tokensItems : List (Json ν) → List (List Token)
  | [] => []
  | v :: a => tokens v :: tokensItems a

def tokensMembers : List (String × Json ν) → List (List Token)
  | [] => []
  | (k, v) :: m => (.string (pieces k) :: .punct ':' :: tokens v) :: tokensMembers m

end

@[simp] theorem tokensItems_eq (a : List (Json ν)) : tokensItems spell a = a.map (tokens spell) := by
  induction a with
  | nil => rfl
  | cons v a ih => rw [tokensItems, ih, map_cons]

@[simp] theorem tokensMembers_eq (m : List (String × Json ν)) : tokensMembers spell m =
    m.map fun p => .string (pieces p.1) :: .punct ':' :: tokens spell p.2 := by
  induction m with
  | nil => rfl
  | cons p m ih => rw [tokensMembers, ih, map_cons]

end Tree

/-! ## The lexer -/

/-- The tokens that the lexer ends with. -/
def lexFrom (x : Lexing) (r : List Char) : Option (List Token) := (r.foldlM Lexing.step x).bind Lexing.finish

theorem lexFrom_cons (x : Lexing) (c : Char) (r : List Char) :
    lexFrom x (c :: r) = (x.step c).bind (lexFrom · r) := by
  rw [lexFrom, foldlM_cons]
  cases x.step c <;> rfl

/-- A bracket, a brace or a comma follows, or nothing. -/
def Delimited (r : List Char) : Prop := ∀ c ∈ r.head?, isPunct c = true

theorem lexFrom_punct {c : Char} (hc : isPunct c = true) (T : List Token) (r : List Char) :
    lexFrom ⟨T, .gap⟩ (c :: r) = lexFrom ⟨T ++ [.punct c], .gap⟩ r := by
  have hcases : c = '[' ∨ c = ']' ∨ c = '\x7b' ∨ c = '\x7d' ∨ c = ',' ∨ c = ':' := by
    simpa [isPunct] using hc
  rw [lexFrom_cons]
  rcases hcases with rfl | rfl | rfl | rfl | rfl | rfl <;> rfl

/-- A character of a word. -/
def IsPlain (c : Char) : Prop := isBlank c = false ∧ c ≠ '"' ∧ isPunct c = false

instance : DecidablePred IsPlain := fun c =>
  inferInstanceAs (Decidable (isBlank c = false ∧ c ≠ '"' ∧ isPunct c = false))

theorem lexFrom_word {w : List Char} {t : Token} (hw : ∀ c ∈ w, IsPlain c) (hne : w ≠ [])
    (hread : readWord w = some t) (T : List Token) {r : List Char} (hr : Delimited r) :
    lexFrom ⟨T, .gap⟩ (w ++ r) = lexFrom ⟨T ++ [t], .gap⟩ r := by
  have hrest : ∀ ds cs : List Char, (∀ c ∈ ds, IsPlain c) →
      lexFrom ⟨T, .word cs⟩ (ds ++ r) = lexFrom ⟨T, .word (cs ++ ds)⟩ r := by
    intro ds
    induction ds with
    | nil => simp
    | cons d ds ih =>
      intro cs hds
      obtain ⟨hblank, hquote, hpunct⟩ := hds d mem_cons_self
      have hstep : Lexing.step ⟨T, .word cs⟩ d = some ⟨T, .word (cs ++ [d])⟩ := by
        simp [Lexing.step, hblank, hquote, hpunct]
      rw [cons_append, lexFrom_cons, hstep, Option.bind_some,
        ih _ fun c hc => hds c (mem_cons_of_mem _ hc), append_assoc, singleton_append]
  have hend : lexFrom ⟨T, .word w⟩ r = lexFrom ⟨T ++ [t], .gap⟩ r := by
    cases r with
    | nil => simp [lexFrom, Lexing.finish, hread]
    | cons c r =>
      have hc : isPunct c = true := hr c rfl
      have hstep : Lexing.step ⟨T, .word w⟩ c = some (lexGap (T ++ [t]) c) := by
        simp [Lexing.step, hc, hread]
      rw [lexFrom_cons, lexFrom_cons, hstep]
      rfl
  obtain ⟨c, w', rfl⟩ := exists_cons_of_ne_nil hne
  obtain ⟨hblank, hquote, hpunct⟩ := hw c mem_cons_self
  have hstep : Lexing.step ⟨T, .gap⟩ c = some ⟨T, .word [c]⟩ := by
    simp [Lexing.step, lexGap, hblank, hquote, hpunct]
  rw [cons_append, lexFrom_cons, hstep, Option.bind_some,
    hrest w' [c] fun d hd => hw d (mem_cons_of_mem _ hd), singleton_append, hend]

private theorem hexDigit_digitChar : ∀ n < 16, hexDigit n.digitChar = some n := by decide

theorem lexFrom_escape (T : List Token) (s : Str) (c : Char) (r : List Char) :
    lexFrom ⟨T, .string s⟩ (Json.escape c ++ r) = lexFrom ⟨T, .string (s ++ [piece c])⟩ r := by
  unfold Json.escape
  split_ifs with h1 h2 h3 h4 h5 h6 h7 h8
  · subst h1
    rfl
  · subst h2
    rfl
  · subst h3
    rfl
  · subst h4
    rfl
  · subst h5
    rfl
  · subst h6
    rfl
  · subst h7
    rfl
  · have hhigh := hexDigit_digitChar (c.toNat / 16) (by omega)
    have hlow := hexDigit_digitChar (c.toNat % 16) (by omega)
    have hvalue : 16 * (c.toNat / 16) + c.toNat % 16 = c.toNat := by omega
    have hpiece : piece c = .unit c.toNat := by
      simp [piece, h3, h4, h5, h6, h7, h8]
    have hzero : hexDigit '0' = some 0 := rfl
    simp [lexFrom_cons, Lexing.step, hhigh, hlow, hzero, hvalue, hpiece]
  · have hpiece : piece c = .char c := by
      simp [piece, h3, h4, h5, h6, h7, h8]
    simp [lexFrom_cons, Lexing.step, h1, h2, h8, hpiece]

theorem lexFrom_quote (T : List Token) (s : String) (r : List Char) :
    lexFrom ⟨T, .gap⟩ (Json.quote s ++ r) = lexFrom ⟨T ++ [.string (pieces s)], .gap⟩ r := by
  have hchars : ∀ (l : List Char) (s : Str),
      lexFrom ⟨T, .string s⟩ (l.flatMap Json.escape ++ '"' :: r) =
        lexFrom ⟨T ++ [.string (s ++ l.map piece)], .gap⟩ r := by
    intro l
    induction l with
    | nil =>
      intro s
      rw [flatMap_nil, nil_append, lexFrom_cons, map_nil, append_nil]
      rfl
    | cons c l ih =>
      intro s
      rw [flatMap_cons, append_assoc, lexFrom_escape, ih, map_cons, append_assoc,
        singleton_append]
  simp only [Json.quote, cons_append, append_assoc, nil_append]
  rw [lexFrom_cons]
  exact hchars s.toList []

/-- The texts of numbers are words, and are read as the numbers that `spell` says. -/
structure Spelled (num : ν → List Char) (spell : ν → Number) : Prop where
  read : ∀ n, readNumber (num n) = some (spell n)
  plain : ∀ n, ∀ c ∈ num n, IsPlain c

namespace Spelled

variable {num : ν → List Char} {spell : ν → Number} (h : Spelled num spell)
include h

theorem ne_nil (n : ν) : num n ≠ [] := by
  intro hnil
  have := h.read n
  rw [hnil] at this
  cases this

theorem readWord (n : ν) : readWord (num n) = some (.number (spell n)) := by
  have hword : ∀ w : List Char, w.head? ≠ some '-' → (∀ c ∈ w.head?, c.isDigit = false) →
      readNumber w = none := by
    intro w hdash hdigit
    cases w with
    | nil => rfl
    | cons c w =>
      have hdash' : c ≠ '-' := fun hc => hdash (by rw [hc]; rfl)
      simp [readNumber, hdash', hdigit c rfl]
  have hread := h.read n
  unfold JsonText.readWord
  rw [if_neg, if_neg, if_neg, hread, Option.map_some]
  all_goals
    intro heq
    rw [heq, hword _ (by decide) (by simp)] at hread
    cases hread

theorem lexFrom_number (n : ν) (T : List Token) {r : List Char} (hr : Delimited r) :
    lexFrom ⟨T, .gap⟩ (num n ++ r) = lexFrom ⟨T ++ [.number (spell n)], .gap⟩ r :=
  lexFrom_word (h.plain n) (h.ne_nil n) (h.readWord n) T hr

omit h in
/-- The tokens of parts are joined as their texts are. -/
theorem lexFrom_join {α : Type*} {p : α → List Char} {t : α → List Token} {close : Char}
    (hclose : isPunct close = true) {a : List α}
    (ha : ∀ x ∈ a, ∀ T r, Delimited r → lexFrom ⟨T, .gap⟩ (p x ++ r) = lexFrom ⟨T ++ t x, .gap⟩ r)
    (T : List Token) (r : List Char) :
    lexFrom ⟨T, .gap⟩ (Json.joinComma (a.map p) ++ close :: r) =
      lexFrom ⟨T ++ joinTokens (a.map t) ++ [.punct close], .gap⟩ r := by
  have htail : ∀ b : List α, (∀ x ∈ b, x ∈ a) → ∀ T,
      lexFrom ⟨T, .gap⟩ ((b.map p).flatMap (',' :: ·) ++ close :: r) =
        lexFrom ⟨T ++ (b.map t).flatMap (.punct ',' :: ·) ++ [.punct close], .gap⟩ r := by
    intro b
    induction b with
    | nil =>
      intro _ T
      simpa using lexFrom_punct hclose T r
    | cons y b ih =>
      intro hb T
      have hdelim : Delimited ((b.map p).flatMap (',' :: ·) ++ close :: r) := by
        intro c hc
        cases b with
        | nil =>
          cases hc
          exact hclose
        | cons z b =>
          cases hc
          rfl
      simp only [map_cons, flatMap_cons, cons_append, append_assoc]
      rw [lexFrom_punct rfl, ha y (hb y mem_cons_self) _ _ hdelim,
        ih (fun x hx => hb x (mem_cons_of_mem _ hx))]
      simp
  cases a with
  | nil => simpa [Json.joinComma, joinTokens] using lexFrom_punct hclose T r
  | cons x a =>
    have hdelim : Delimited ((a.map p).flatMap (',' :: ·) ++ close :: r) := by
      intro c hc
      cases a with
      | nil =>
        cases hc
        exact hclose
      | cons z a =>
        cases hc
        rfl
    rw [map_cons, map_cons, Json.joinComma, joinTokens, append_assoc,
      ha x mem_cons_self _ _ hdelim, htail a (fun y hy => mem_cons_of_mem _ hy)]
    simp

theorem lexFrom_text (v : Json ν) : ∀ (T : List Token) (r : List Char), Delimited r →
    lexFrom ⟨T, .gap⟩ (Json.text num v ++ r) = lexFrom ⟨T ++ tokens spell v, .gap⟩ r := by
  induction v using Json.induct with
  | null =>
    intro T r hr
    exact lexFrom_word (w := ['n', 'u', 'l', 'l']) (by simp [IsPlain, isBlank, isPunct]) (by decide) rfl T hr
  | bool b =>
    intro T r hr
    cases b
    · exact lexFrom_word (w := ['f', 'a', 'l', 's', 'e']) (by simp [IsPlain, isBlank, isPunct]) (by decide) rfl T hr
    · exact lexFrom_word (w := ['t', 'r', 'u', 'e']) (by simp [IsPlain, isBlank, isPunct]) (by decide) rfl T hr
  | number n => exact fun T r hr => h.lexFrom_number n T hr
  | string s => exact fun T r _ => lexFrom_quote T s r
  | array a ih =>
    intro T r _
    simp only [Json.text, Json.textItems_eq, tokens, tokensItems_eq, cons_append,
      append_assoc, nil_append]
    rw [lexFrom_punct rfl, lexFrom_join rfl ih]
    simp
  | object m ih =>
    intro T r _
    simp only [Json.text, Json.textMembers_eq, tokens, tokensMembers_eq, cons_append,
      append_assoc, nil_append]
    rw [lexFrom_punct rfl, lexFrom_join rfl (t := fun p =>
        .string (pieces p.1) :: .punct ':' :: tokens spell p.2) ?_]
    · simp
    · intro p hp T r hr
      simp only [append_assoc, cons_append]
      rw [lexFrom_quote, lexFrom_punct rfl, ih p hp _ _ hr]
      simp

theorem lex_text (v : Json ν) : lex (Json.text num v) = some (tokens spell v) := by
  have hlex := h.lexFrom_text v [] [] (fun _ hc => nomatch hc)
  rw [append_nil] at hlex
  show lexFrom ⟨[], .gap⟩ (Json.text num v) = _
  rw [hlex]
  rfl

end Spelled

/-! ## The parser -/

/-- The value that the parser ends with. -/
def parseFrom (p : Parsing) (ts : List Token) : Option Tree := (ts.foldlM Parsing.step p).bind fun p =>
  match p.place with
  | .done v => some v
  | _ => none

theorem parseFrom_cons (p : Parsing) (t : Token) (ts : List Token) :
    parseFrom p (t :: ts) = (p.step t).bind (parseFrom · ts) := by
  rw [parseFrom, foldlM_cons]
  cases p.step t <;> rfl

theorem parseFrom_items {spell : ν → Number} {a : List (Json ν)} (ha : ∀ v ∈ a, ∀ frames begun ts,
      parseFrom ⟨frames, .value begun⟩ (tokens spell v ++ ts) =
        parseFrom (.after (tree spell v) frames) ts)
    (items : List Tree) (frames : List Frame) (ts : List Token) :
    parseFrom ⟨frames, .item items⟩
        ((a.map (tokens spell)).flatMap (.punct ',' :: ·) ++ .punct ']' :: ts) =
      parseFrom (.after (.array (items ++ a.map (tree spell))) frames) ts := by
  induction a generalizing items with
  | nil =>
    rw [map_nil, flatMap_nil, nil_append, parseFrom_cons, map_nil, append_nil]
    rfl
  | cons v a ih =>
    rw [map_cons, flatMap_cons, cons_append, cons_append, append_assoc,
      parseFrom_cons]
    refine (ha v mem_cons_self (.array items :: frames) false _).trans ?_
    refine (ih (fun w hw => ha w (mem_cons_of_mem _ hw)) (items ++ [tree spell v])).trans ?_
    rw [append_assoc, singleton_append, map_cons]

theorem parseFrom_members {spell : ν → Number} {m : List (String × Json ν)}
    (hm : ∀ p ∈ m, ∀ frames begun ts, parseFrom ⟨frames, .value begun⟩ (tokens spell p.2 ++ ts) =
      parseFrom (.after (tree spell p.2) frames) ts)
    (members : List (Str × Tree)) (frames : List Frame) (ts : List Token) :
    parseFrom ⟨frames, .member members⟩ ((m.map fun p =>
        .string (pieces p.1) :: .punct ':' :: tokens spell p.2).flatMap (.punct ',' :: ·) ++
          .punct '\x7d' :: ts) =
      parseFrom (.after (.object (members ++ m.map fun p => (pieces p.1, tree spell p.2))) frames) ts := by
  induction m generalizing members with
  | nil =>
    rw [map_nil, flatMap_nil, nil_append, parseFrom_cons, map_nil, append_nil]
    rfl
  | cons p m ih =>
    rw [map_cons, flatMap_cons, cons_append, cons_append, cons_append,
      cons_append, append_assoc, parseFrom_cons]
    refine (hm p mem_cons_self (.object members (pieces p.1) :: frames) false _).trans ?_
    refine (ih (fun q hq => hm q (mem_cons_of_mem _ hq))
      (members ++ [(pieces p.1, tree spell p.2)])).trans ?_
    rw [append_assoc, singleton_append, map_cons]

theorem parseFrom_tokens (spell : ν → Number) (v : Json ν) :
    ∀ (frames : List Frame) (begun : Bool) (ts : List Token),
      parseFrom ⟨frames, .value begun⟩ (tokens spell v ++ ts) =
        parseFrom (.after (tree spell v) frames) ts := by
  induction v using Json.induct with
  | null | bool | number | string => exact fun frames begun ts => rfl
  | array a ih =>
    intro frames begun ts
    simp only [tokens, tokensItems_eq, cons_append, append_assoc, nil_append]
    rw [parseFrom_cons, tree, treeItems_eq]
    cases a with
    | nil => rfl
    | cons v a =>
      rw [map_cons, joinTokens, append_assoc]
      refine (ih v mem_cons_self (.array [] :: frames) true _).trans ?_
      exact parseFrom_items (fun w hw => ih w (mem_cons_of_mem _ hw)) [tree spell v] frames ts
  | object m ih =>
    intro frames begun ts
    simp only [tokens, tokensMembers_eq, cons_append, append_assoc, nil_append]
    rw [parseFrom_cons, tree, treeMembers_eq]
    cases m with
    | nil => rfl
    | cons p m =>
      rw [map_cons, joinTokens, cons_append, cons_append, append_assoc]
      refine (ih p mem_cons_self (.object [] (pieces p.1) :: frames) false _).trans ?_
      exact parseFrom_members (fun q hq => ih q (mem_cons_of_mem _ hq))
        [(pieces p.1, tree spell p.2)] frames ts

/-- The text of a value parses to its tree. -/
theorem Spelled.parse_text {num : ν → List Char} {spell : ν → Number} (h : Spelled num spell)
    (v : Json ν) : parse (Json.text num v) = some (tree spell v) := by
  have hparse := parseFrom_tokens spell v [] false []
  rw [append_nil] at hparse
  unfold parse
  rw [h.lex_text v]
  exact hparse

/-! ## Strings -/

/-- A reader that takes U+0000 as it is reads every string back. -/
theorem decode_pieces {ε : Type} (lone : ε) (s : String) :
    decode lone (.ok (Char.ofNat 0)) (pieces s) = .ok s.toList := by
  have hunit : ∀ n, n < 32 → unitChar (ε := ε) (.ok (Char.ofNat 0)) n = .ok (Char.ofNat n) := by
    intro n _
    unfold unitChar
    split
    · next h => rw [h]
    · rfl
  rw [pieces]
  induction s.toList with
  | nil => rfl
  | cons c l ih =>
    rw [map_cons, piece]
    split
    · rw [decode, ih]
      rfl
    · split
      · next h =>
        have hhigh : isHigh c.toNat = false := by
          simp only [isHigh, Bool.and_eq_false_iff, decide_eq_false_iff_not]
          omega
        have hlow : isLow c.toNat = false := by
          simp only [isLow, Bool.and_eq_false_iff, decide_eq_false_iff_not]
          omega
        unfold decode
        rw [hhigh, hlow, hunit _ h, ih, Char.ofNat_toNat]
        rfl
      · rw [decode, ih]
        rfl

/-! ## Numbers and depths -/

/-- The number that is written. -/
def Number.value (n : Number) : ℚ :=
  (if n.neg then -1 else 1) * (digitsValue (n.whole ++ n.frac) / 10 ^ n.frac.length) *
    10 ^ n.exp.getD 0

section Depth

mutual

/-- How deep arrays and objects are nested. -/
def depth : Json ν → ℕ
  | .array a => depthItems a + 1
  | .object m => depthMembers m + 1
  | _ => 0

def depthItems : List (Json ν) → ℕ
  | [] => 0
  | v :: a => max (depth v) (depthItems a)

def depthMembers : List (String × Json ν) → ℕ
  | [] => 0
  | (_, v) :: m => max (depth v) (depthMembers m)

end

theorem depth_tree (spell : ν → Number) (v : Json ν) : (tree spell v).depth = depth v := by
  induction v using Json.induct with
  | array a ih =>
    rw [tree, treeItems_eq, Tree.depth, depth]
    congr 1
    induction a with
    | nil => rfl
    | cons v a ih' =>
      rw [map_cons, Tree.depthItems, depthItems, ih v mem_cons_self,
        ih' fun w hw => ih w (mem_cons_of_mem _ hw)]
  | object m ih =>
    rw [tree, treeMembers_eq, Tree.depth, depth]
    congr 1
    induction m with
    | nil => rfl
    | cons p m ih' =>
      rw [map_cons, Tree.depthMembers, depthMembers, ih p mem_cons_self,
        ih' fun q hq => ih q (mem_cons_of_mem _ hq)]
  | _ => rfl

end Depth

end Polis.JsonText
