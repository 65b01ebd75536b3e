import Polis.Common.Json
import Polis.Common.Table

/-!
# JSON texts

A text is cut into tokens and the tokens are put together to a tree, which keeps strings as they are
escaped, numbers as they are written and members as they are listed. A reader gives the tree a value: it
says what a string and a number mean, and the last member of a key wins. Two readers that agree on the
strings and the numbers of a tree agree on its value.
-/

namespace Polis.JsonText

open List

/-! ## Tokens -/

/-- A number as it is written: `whole.frac` times ten to `exp`. -/
structure Number where
  neg : Bool
  whole : List Char
  frac : List Char
  exp : Option ℤ
deriving DecidableEq

/-- A character of a string, or what follows `\u`. -/
inductive Piece
  | char (c : Char)
  | unit (n : ℕ)
deriving DecidableEq

/-- A string between its quotes. -/
abbrev Str := List Piece

inductive Token
  /-- A bracket, a brace, a comma or a colon. -/
  | punct (c : Char)
  | null
  | bool (b : Bool)
  | number (n : Number)
  | string (s : Str)
deriving DecidableEq

def isBlank (c : Char) : Bool := c = ' ' || c = '\t' || c = '\n' || c = '\r'

def isPunct (c : Char) : Bool := ['[', ']', '{', '}', ',', ':'].contains c

/-- The digits after a point. -/
def readFrac : List Char → Option (List Char × List Char)
  | '.' :: cs =>
    if cs.takeWhile Char.isDigit = [] then none
    else some (cs.takeWhile Char.isDigit, cs.dropWhile Char.isDigit)
  | cs => some ([], cs)

/-- The exponent that ends a number. -/
def readExp : List Char → Option (Option ℤ)
  | [] => some none
  | e :: cs =>
    let digits := if cs.head? = some '-' ∨ cs.head? = some '+' then cs.tail else cs
    if (e = 'e' ∨ e = 'E') ∧ digits ≠ [] ∧ digits.all Char.isDigit then
      some (some (if cs.head? = some '-' then -digitsValue digits else digitsValue digits))
    else none

def readNumber (cs : List Char) : Option Number :=
  let neg := decide (cs.head? = some '-')
  let unsigned := if neg then cs.tail else cs
  let whole := unsigned.takeWhile Char.isDigit
  if whole = [] ∨ whole.head? = some '0' ∧ whole ≠ ['0'] then none
  else do
    let (frac, rest) ← readFrac (unsigned.dropWhile Char.isDigit)
    let exp ← readExp rest
    pure ⟨neg, whole, frac, exp⟩

def readWord (cs : List Char) : Option Token :=
  if cs = ['n', 'u', 'l', 'l'] then some .null
  else if cs = ['t', 'r', 'u', 'e'] then some (.bool true)
  else if cs = ['f', 'a', 'l', 's', 'e'] then some (.bool false)
  else (readNumber cs).map .number

/-- The character that a backslash and a letter stand for. -/
def unescape (c : Char) : Option Char :=
  if c = '"' ∨ c = '\\' ∨ c = '/' then some c
  else if c = 'b' then some (Char.ofNat 8)
  else if c = 'f' then some (Char.ofNat 12)
  else if c = 'n' then some '\n'
  else if c = 'r' then some '\r'
  else if c = 't' then some '\t'
  else none

def hexDigit (c : Char) : Option ℕ :=
  if '0' ≤ c ∧ c ≤ '9' then some (c.toNat - 48)
  else if 'a' ≤ c ∧ c ≤ 'f' then some (c.toNat - 87)
  else if 'A' ≤ c ∧ c ≤ 'F' then some (c.toNat - 55)
  else none

/-- Where the lexer is. -/
inductive Mode
  | gap
  /-- In a literal or a number. -/
  | word (cs : List Char)
  | string (s : Str)
  /-- After a backslash. -/
  | escape (s : Str)
  /-- After `\u`, with so many digits to come. -/
  | hex (s : Str) (left value : ℕ)

structure Lexing where
  tokens : List Token
  mode : Mode

/-- A character between the tokens. -/
def lexGap (tokens : List Token) (c : Char) : Lexing :=
  if isBlank c then ⟨tokens, .gap⟩
  else if c = '"' then ⟨tokens, .string []⟩
  else if isPunct c then ⟨tokens ++ [.punct c], .gap⟩
  else ⟨tokens, .word [c]⟩

def Lexing.step (x : Lexing) (c : Char) : Option Lexing :=
  match x.mode with
  | .gap => some (lexGap x.tokens c)
  | .word cs =>
    if isBlank c ∨ c = '"' ∨ isPunct c then
      (readWord cs).map fun t => lexGap (x.tokens ++ [t]) c
    else some ⟨x.tokens, .word (cs ++ [c])⟩
  | .string s =>
    if c = '"' then some ⟨x.tokens ++ [.string s], .gap⟩
    else if c = '\\' then some ⟨x.tokens, .escape s⟩
    else if c.toNat < 32 then none
    else some ⟨x.tokens, .string (s ++ [.char c])⟩
  | .escape s =>
    if c = 'u' then some ⟨x.tokens, .hex s 4 0⟩
    else (unescape c).map fun d => ⟨x.tokens, .string (s ++ [.char d])⟩
  | .hex s left value => (hexDigit c).map fun d =>
    if left ≤ 1 then ⟨x.tokens, .string (s ++ [.unit (16 * value + d)])⟩
    else ⟨x.tokens, .hex s (left - 1) (16 * value + d)⟩

def Lexing.finish (x : Lexing) : Option (List Token) :=
  match x.mode with
  | .gap => some x.tokens
  | .word cs => (readWord cs).map (x.tokens ++ [·])
  | _ => none

def lex (text : List Char) : Option (List Token) := do
  let x ← text.foldlM Lexing.step ⟨[], .gap⟩
  x.finish

/-! ## Trees -/

/-- A value as it is written. -/
inductive Tree
  | null
  | bool (b : Bool)
  | number (n : Number)
  | string (s : Str)
  | array (items : List Tree)
  | object (members : List (Str × Tree))

/-- An array or an object that is not yet closed. -/
inductive Frame
  | array (items : List Tree)
  /-- With the key whose value is to come. -/
  | object (members : List (Str × Tree)) (key : Str)

/-- What may come next. -/
inductive Place
  /-- A value, or the end of an array that has just begun. -/
  | value (begun : Bool)
  /-- A key, or the end of an object that has just begun. -/
  | key (members : List (Str × Tree)) (begun : Bool)
  | colon (members : List (Str × Tree)) (key : Str)
  /-- A comma or the end of the array. -/
  | item (items : List Tree)
  /-- A comma or the end of the object. -/
  | member (members : List (Str × Tree))
  | done (v : Tree)

structure Parsing where
  frames : List Frame
  place : Place

/-- The place after a value. -/
def Parsing.after (v : Tree) : List Frame → Parsing
  | [] => ⟨[], .done v⟩
  | .array items :: frames => ⟨frames, .item (items ++ [v])⟩
  | .object members key :: frames => ⟨frames, .member (members ++ [(key, v)])⟩

def Parsing.step (p : Parsing) (t : Token) : Option Parsing :=
  match p.place, t with
  | .value _, .null => some (.after .null p.frames)
  | .value _, .bool b => some (.after (.bool b) p.frames)
  | .value _, .number n => some (.after (.number n) p.frames)
  | .value _, .string s => some (.after (.string s) p.frames)
  | .value _, .punct '[' => some ⟨.array [] :: p.frames, .value true⟩
  | .value _, .punct '{' => some ⟨p.frames, .key [] true⟩
  | .value true, .punct ']' => match p.frames with
      | .array items :: rest => some (.after (.array items) rest)
      | _ => none
  | .key members _, .string s => some ⟨p.frames, .colon members s⟩
  | .key members true, .punct '}' => some (.after (.object members) p.frames)
  | .colon members s, .punct ':' => some ⟨.object members s :: p.frames, .value false⟩
  | .item items, .punct ',' => some ⟨.array items :: p.frames, .value false⟩
  | .item items, .punct ']' => some (.after (.array items) p.frames)
  | .member members, .punct ',' => some ⟨p.frames, .key members false⟩
  | .member members, .punct '}' => some (.after (.object members) p.frames)
  | _, _ => none

/-- The tree of a text. -/
def parse (text : List Char) : Option Tree := do
  let tokens ← lex text
  let p ← tokens.foldlM Parsing.step ⟨[], .value false⟩
  match p.place with
  | .done v => some v
  | _ => none

namespace Tree

/-- Induction with the items and the members as lists. -/
@[elab_as_elim]
theorem induct {P : Tree → Prop} (null : P .null) (bool : ∀ b, P (.bool b))
    (number : ∀ n, P (.number n)) (string : ∀ s, P (.string s))
    (array : ∀ a, (∀ v ∈ a, P v) → P (.array a))
    (object : ∀ m, (∀ p ∈ m, P p.2) → P (.object m)) (v : Tree) : P v :=
  @Tree.rec P (fun a => ∀ v ∈ a, P v) (fun m => ∀ p ∈ m, P p.2) (fun p => P p.2) null bool number
    string array object (fun _ h => nomatch h)
    (fun _ _ hv ha => forall_mem_cons.2 ⟨hv, ha⟩) (fun _ h => nomatch h)
    (fun _ _ hp hm => forall_mem_cons.2 ⟨hp, hm⟩) (fun _ _ hv => hv) v

mutual

/-- How deep arrays and objects are nested. -/
def depth : Tree → ℕ
  | .array items => depthItems items + 1
  | .object members => depthMembers members + 1
  | _ => 0

def depthItems : List Tree → ℕ
  | [] => 0
  | v :: items => max (depth v) (depthItems items)

def depthMembers : List (Str × Tree) → ℕ
  | [] => 0
  | (_, v) :: members => max (depth v) (depthMembers members)

end

section All

variable (p : Str → Bool) (q : Number → Bool)

mutual

/-- Every string, as a key or a value, and every number of a tree. -/
def all : Tree → Bool
  | .number n => q n
  | .string s => p s
  | .array items => allItems items
  | .object members => allMembers members
  | _ => true

def allItems : List Tree → Bool
  | [] => true
  | v :: items => all v && allItems items

def allMembers : List (Str × Tree) → Bool
  | [] => true
  | (k, v) :: members => p k && all v && allMembers members

end

end All

end Tree

/-! ## Strings -/

def isHigh (n : ℕ) : Bool := 0xD800 ≤ n && n < 0xDC00

def isLow (n : ℕ) : Bool := 0xDC00 ≤ n && n < 0xE000

/-- The character of a pair of surrogates. -/
def pair (high low : ℕ) : Char := Char.ofNat (0x10000 + (high - 0xD800) * 0x400 + (low - 0xDC00))

section Decode

variable {ε : Type} (lone : ε) (nul : Except ε Char)

/-- The character of a code unit that is no surrogate; a reader says what it makes of U+0000. -/
def unitChar (n : ℕ) : Except ε Char := if n = 0 then nul else .ok (Char.ofNat n)

/-- The characters of a string; `lone` is the error of a surrogate that has no partner. -/
def decode : Str → Except ε (List Char)
  | [] => .ok []
  | .char c :: s => do
    let t ← decode s
    pure (c :: t)
  | .unit n :: s =>
    if isHigh n then match s with
      | .unit m :: s =>
        if isLow m then do
          let t ← decode s
          pure (pair n m :: t)
        else .error lone
      | _ => .error lone
    else if isLow n then .error lone
    else do
      let c ← unitChar nul n
      let t ← decode s
      pure (c :: t)

/-- The string writes U+0000 as an escape. -/
def escapesNul (s : Str) : Bool := s.contains (.unit 0)

variable {lone nul} {ε' : Type} {lone' : ε'} {nul' : Except ε' Char}

theorem escapesNul_cons {p : Piece} {s : Str} (h : escapesNul (p :: s) = false) :
    p ≠ .unit 0 ∧ escapesNul s = false := by
  simp only [escapesNul, contains_cons, Bool.or_eq_false_iff, beq_eq_false_iff_ne] at h
  exact ⟨h.1.symm, h.2⟩

/-- Two readers differ on a string only where it escapes U+0000. -/
theorem decode_agree {s : Str} {t : List Char} (hs : escapesNul s = false)
    (h : decode lone nul s = .ok t) : decode lone' nul' s = .ok t := by
  fun_induction decode lone nul s generalizing t with
  | case1 =>
    cases h
    rfl
  | case2 c s ih =>
    obtain ⟨t', ht', h⟩ := bind_eq_ok.1 h
    cases h
    rw [decode, ih (escapesNul_cons hs).2 ht']
    rfl
  | case3 n hhigh m s hlow ih =>
    obtain ⟨t', ht', h⟩ := bind_eq_ok.1 h
    cases h
    rw [decode, if_pos hhigh, if_pos hlow, ih (escapesNul_cons (escapesNul_cons hs).2).2 ht']
    rfl
  | case7 n s hhigh hlow ih =>
    obtain ⟨c, hc, h⟩ := bind_eq_ok.1 h
    obtain ⟨t', ht', h⟩ := bind_eq_ok.1 h
    cases h
    have hn : n ≠ 0 := fun hn => (escapesNul_cons hs).1 (by rw [hn])
    rw [unitChar, if_neg hn] at hc
    cases hc
    unfold decode
    rw [if_neg hhigh, if_neg hlow, unitChar, if_neg hn, ih (escapesNul_cons hs).2 ht']
    rfl
  | _ => cases h

end Decode

/-! ## Readers -/

/-- The last member of a key. -/
def lastWins {α : Type*} : List (String × α) → List (String × α)
  | [] => []
  | p :: m => if m.any (·.1 = p.1) then lastWins m else p :: lastWins m

theorem lastWins_map {α β : Type*} (f : α → β) (m : List (String × α)) :
    lastWins (m.map (Prod.map id f)) = (lastWins m).map (Prod.map id f) := by
  induction m with
  | nil => rfl
  | cons p m ih =>
    have hany : (m.map (Prod.map id f)).any (·.1 = (Prod.map id f p).1) = m.any (·.1 = p.1) :=
      any_map
    rw [map_cons, lastWins, lastWins, ih]
    by_cases h : m.any (·.1 = p.1)
    · rw [if_pos h, if_pos (hany.trans h)]
    · rw [if_neg h, if_neg fun h' => h (hany.symm.trans h'), map_cons]

section Read

variable {ε ν : Type} (str : Str → Except ε String) (num : Number → Except ε ν)

mutual

/-- The value of a tree, read from left to right. -/
def read : Tree → Except ε (Json ν)
  | .null => .ok .null
  | .bool b => .ok (.bool b)
  | .number n => do
    let x ← num n
    pure (.number x)
  | .string s => do
    let t ← str s
    pure (.string t)
  | .array items => do
    let a ← readItems items
    pure (.array a)
  | .object members => do
    let m ← readMembers members
    pure (.object (lastWins m))

def readItems : List Tree → Except ε (List (Json ν))
  | [] => .ok []
  | v :: items => do
    let x ← read v
    let a ← readItems items
    pure (x :: a)

def readMembers : List (Str × Tree) → Except ε (List (String × Json ν))
  | [] => .ok []
  | (k, v) :: members => do
    let t ← str k
    let x ← read v
    let m ← readMembers members
    pure ((t, x) :: m)

end

end Read

/-! ## Agreement -/

section Map

variable {ν μ : Type} (f : ν → μ)

mutual

/-- The value with other numbers. -/
def map : Json ν → Json μ
  | .null => .null
  | .bool b => .bool b
  | .number n => .number (f n)
  | .string s => .string s
  | .array a => .array (mapItems a)
  | .object m => .object (mapMembers m)

def mapItems : List (Json ν) → List (Json μ)
  | [] => []
  | v :: a => map v :: mapItems a

def mapMembers : List (String × Json ν) → List (String × Json μ)
  | [] => []
  | (k, v) :: m => (k, map v) :: mapMembers m

end

@[simp] theorem mapItems_eq (a : List (Json ν)) : mapItems f a = a.map (map f) := by
  induction a with
  | nil => rfl
  | cons v a ih => rw [mapItems, ih, map_cons]

@[simp] theorem mapMembers_eq (m : List (String × Json ν)) :
    mapMembers f m = m.map (Prod.map id (map f)) := by
  induction m with
  | nil => rfl
  | cons p m ih =>
    rw [mapMembers, ih, map_cons]
    rfl

end Map

section Agree

variable {ε ε' ν μ : Type} {str : Str → Except ε String} {num : Number → Except ε ν}
  {str' : Str → Except ε' String} {num' : Number → Except ε' μ} {f : ν → μ} {p : Str → Bool}
  {q : Number → Bool} (hstr : ∀ s t, p s = true → str s = .ok t → str' s = .ok t)
  (hnum : ∀ n x, q n = true → num n = .ok x → num' n = .ok (f x))

theorem readItems_agree {items : List Tree} {a : List (Json ν)}
    (ih : ∀ v ∈ items, ∀ x, v.all p q = true → read str num v = .ok x →
      read str' num' v = .ok (map f x))
    (hall : Tree.allItems p q items = true) (h : readItems str num items = .ok a) :
    readItems str' num' items = .ok (a.map (map f)) := by
  induction items generalizing a with
  | nil =>
    cases h
    rfl
  | cons v items ih' =>
    rw [Tree.allItems, Bool.and_eq_true] at hall
    obtain ⟨x, hx, h⟩ := bind_eq_ok.1 h
    obtain ⟨a, ha, h⟩ := bind_eq_ok.1 h
    cases h
    rw [readItems, ih v mem_cons_self x hall.1 hx,
      ih' (fun v hv => ih v (mem_cons_of_mem _ hv)) hall.2 ha]
    rfl

include hstr in
theorem readMembers_agree {members : List (Str × Tree)} {m : List (String × Json ν)}
    (ih : ∀ e ∈ members, ∀ x, e.2.all p q = true → read str num e.2 = .ok x →
      read str' num' e.2 = .ok (map f x))
    (hall : Tree.allMembers p q members = true) (h : readMembers str num members = .ok m) :
    readMembers str' num' members = .ok (m.map (Prod.map id (map f))) := by
  induction members generalizing m with
  | nil =>
    cases h
    rfl
  | cons e members ih' =>
    obtain ⟨k, v⟩ := e
    rw [Tree.allMembers, Bool.and_eq_true, Bool.and_eq_true] at hall
    obtain ⟨t, ht, h⟩ := bind_eq_ok.1 h
    obtain ⟨x, hx, h⟩ := bind_eq_ok.1 h
    obtain ⟨m, hm, h⟩ := bind_eq_ok.1 h
    cases h
    rw [readMembers, hstr k t hall.1.1 ht, ih (k, v) mem_cons_self x hall.1.2 hx,
      ih' (fun e he => ih e (mem_cons_of_mem _ he)) hall.2 hm]
    rfl

include hstr hnum in
/-- Two readers that agree on the strings and the numbers of a tree agree on its value. -/
theorem read_agree {v : Tree} {x : Json ν} (hall : v.all p q = true) (h : read str num v = .ok x) :
    read str' num' v = .ok (map f x) := by
  induction v using Tree.induct generalizing x with
  | null | bool =>
    cases h
    rfl
  | number n =>
    obtain ⟨y, hy, h⟩ := bind_eq_ok.1 h
    cases h
    rw [read, hnum n y hall hy]
    rfl
  | string s =>
    obtain ⟨t, ht, h⟩ := bind_eq_ok.1 h
    cases h
    rw [read, hstr s t hall ht]
    rfl
  | array items ih =>
    obtain ⟨a, ha, h⟩ := bind_eq_ok.1 h
    cases h
    rw [read, readItems_agree (fun v hv x => ih v hv) hall ha, map, mapItems_eq]
    rfl
  | object members ih =>
    obtain ⟨m, hm, h⟩ := bind_eq_ok.1 h
    cases h
    rw [read, readMembers_agree hstr (fun e he x => ih e he) hall hm, map, mapMembers_eq,
      ← lastWins_map]
    rfl

end Agree

end Polis.JsonText
