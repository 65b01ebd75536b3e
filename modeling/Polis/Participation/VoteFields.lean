import Polis.Participation.PostVotes
import Polis.Serving.Js

/-!
# The fields of a vote request

The five fields that are read after membership, as the Rust contract reads them and as the middlewares of
`POST /api/v3/votes` do. A number is the token of the body, a string is Unicode text, and a finite number has
one zero. `toLowerCase` and `to_lowercase` are the lowering of Unicode that both languages document.

Reference: `queue-rs/polis-contracts/src/post_votes.rs`, `server/src/utils/parameter.ts`, `server/app.ts`.
-/

namespace Polis.VoteFields

open JsonText Binary64 Js Participation

/-- A value of the body, with its numbers as they are written. -/
abbrev Value : Type := Json Number

/-- The fields of a body; a missing one is none. -/
structure Request where
  tid : Option Value
  vote : Option Value
  starred : Option Value
  high_priority : Option Value
  lang : Option Value

/-- `x.fract() == 0.0`, and `Number.isInteger` -/
def isInteger : F64 → Bool
  | .finite x => x.value.den = 1
  | _ => false

/-- The nearest number to an integer that is written with a sign. -/
def signed (neg : Bool) (digits : List Char) : F64 := .ofNumber ⟨neg, digits, [], none⟩

/-! ## Rust -/

/-- `serde_json::Number` -/
inductive SerdeNumber
  | posInt (n : ℕ)
  | negInt (n : ℤ)
  | float (x : Double)

/-- The number a token is parsed to: an integer that fits stays one, and minus zero is a float. A number that
overflows is refused. -/
def parse_number (n : Number) : Option SerdeNumber :=
  let whole := digitsValue n.whole
  if n.frac = [] ∧ n.exp = none ∧ ¬n.neg ∧ whole < 2 ^ 64 then some (.posInt whole)
  else if n.frac = [] ∧ n.exp = none ∧ n.neg ∧ 0 < whole ∧ whole ≤ 2 ^ 63 then some (.negInt (-whole))
  else (Double.round n.value).map .float

/-- `as_f64` -/
def as_f64 : SerdeNumber → Option Double
  | .posInt n => Double.round n
  | .negInt n => Double.round n
  | .float x => some x

/-- `ecma_space` -/
def ecma_space (c : Char) : Bool :=
  (0x0009 ≤ c.toNat && c.toNat ≤ 0x000d) || c.toNat = 0x0020 || c.toNat = 0x00a0 || c.toNat = 0x1680 ||
    (0x2000 ≤ c.toNat && c.toNat ≤ 0x200a) || c.toNat = 0x2028 || c.toNat = 0x2029 || c.toNat = 0x202f ||
    c.toNat = 0x205f || c.toNat = 0x3000 || c.toNat = 0xfeff

/-- `str::parse::<f64>`, of a text of digits with or without a sign -/
def parse_signed : List Char → Option F64
  | '+' :: digits => if digits ≠ [] ∧ digits.all Char.isDigit then some (signed false digits) else none
  | '-' :: digits => if digits ≠ [] ∧ digits.all Char.isDigit then some (signed true digits) else none
  | digits => if digits ≠ [] ∧ digits.all Char.isDigit then some (signed false digits) else none

/-- `integer` -/
def integer : Value → Option F64
  | .number n => (((parse_number n).bind as_f64).map F64.finite).filter isInteger
  | .string s =>
    let s := s.toList.dropWhile ecma_space
    let sign := if s.head? = some '+' ∨ s.head? = some '-' then 1 else 0
    let digits := ((s.drop sign).takeWhile Char.isDigit).length
    if digits = 0 then none else parse_signed (s.take (sign + digits))
  | _ => none

/-- `boolean` -/
def boolean (to_lowercase : String → String) : Value → Option Bool
  | .bool b => some b
  | .number n => ((parse_number n).bind as_f64).map fun x => decide (x.value ≠ 0)
  | .string s =>
    let s := to_lowercase s
    if s = "t" ∨ s = "true" ∨ s = "on" ∨ s = "1" then some true
    else if s = "f" ∨ s = "false" ∨ s = "off" ∨ s = "0" then some false
    else none
  | _ => none

/-- The length of a text in UTF-16. -/
def utf16Length (s : String) : ℕ := (s.toList.map fun c => if c.toNat < 0x10000 then 1 else 2).sum

/-- `s.trim_matches(' ')`, and the two replacements of leading and of trailing spaces -/
def trimSpaces (s : String) : String := String.ofList ((s.toList.dropWhile (· = ' ')).rdropWhile (· = ' '))

/-- `string` -/
def string (max : ℕ) : Value → Option String
  | .string s => if utf16Length s ≤ max then some (trimSpaces s) else none
  | _ => none

/-- `ParsedFields` -/
structure ParsedFields where
  tid : F64
  vote : VoteChoice
  starred : Option Bool
  high_priority : Bool
  lang : Option String

/-- `raw == f64::from(n)` -/
def equals (x : F64) (n : ℤ) : Bool :=
  match x with
  | .finite x => x.value = n
  | _ => false

/-- The choice that a number on the wire names. -/
def choice (raw : F64) : Option VoteChoice :=
  if equals raw VoteChoice.agree.wire then some .agree
  else if equals raw VoteChoice.disagree.wire then some .disagree
  else if equals raw VoteChoice.pass.wire then some .pass
  else none

/-- `ok_or(InvalidField(name))` -/
def ok_or {α : Type} (name : String) : Option α → Except String α
  | some a => .ok a
  | none => .error name

/-- A field that has to be there. -/
def required {α : Type} (read : Value → Option α) (name : String) (v : Option Value) : Except String α :=
  ok_or name (v.bind read)

/-- A field that may be missing or null. -/
def optional {α : Type} (read : Value → Option α) (name : String) : Option Value → Except String (Option α)
  | none | some .null => .ok none
  | some v => ok_or name ((read v).map some)

/-- `Request::parse_fields`; an error is the name of the field. -/
def parse_fields (to_lowercase : String → String) (r : Request) : Except String ParsedFields := do
  let tid ← required integer "tid" r.tid
  let raw ← required integer "vote" r.vote
  let vote ← ok_or "vote" (choice raw)
  let starred ← optional (boolean to_lowercase) "starred" r.starred
  let high_priority ← optional (boolean to_lowercase) "high_priority" r.high_priority
  let lang ← optional (string 10) "lang" r.lang
  return ⟨tid, vote, starred, high_priority.getD false, lang⟩

/-! ## Node -/

/-- WhiteSpace and LineTerminator, which `trim` and `parseInt` skip: the named ones, the space separators and the
line ends. -/
def isWhiteSpace (c : Char) : Bool :=
  c.toNat ∈ [0x9, 0xb, 0xc, 0xfeff] ||
    c.toNat ∈ [0x20, 0xa0, 0x1680, 0x2000, 0x2001, 0x2002, 0x2003, 0x2004, 0x2005, 0x2006, 0x2007, 0x2008, 0x2009,
      0x200a, 0x202f, 0x205f, 0x3000] ||
    c.toNat ∈ [0xa, 0xd, 0x2028, 0x2029]

/-- `s.trim()` -/
def trim (s : List Char) : List Char := (s.dropWhile isWhiteSpace).rdropWhile isWhiteSpace

/-- Whether a text begins with a minus, and the text after its sign. -/
def splitSign : List Char → Bool × List Char
  | '-' :: s => (true, s)
  | '+' :: s => (false, s)
  | s => (false, s)

/-- `parseInt(s, 10)` -/
def parseInt (s : List Char) : F64 :=
  let s := splitSign (s.dropWhile isWhiteSpace)
  match s.2.takeWhile Char.isDigit with
  | [] => .nan
  | digits => signed s.1 digits

/-- `_integerOrUndefined` -/
def integerOrUndefined : Value → Option F64
  | .string s =>
    if trim s.toList ≠ [] then
      match parseInt s.toList with
      | .nan => none
      | parsed => some parsed
    else none
  | .number n => if isInteger (.ofNumber n) then some (.ofNumber n) else none
  | _ => none

/-- `getInt`; a rejection is none. -/
def getInt (v : Value) : Option F64 := integerOrUndefined v

/-- `getBool`; an array or an object has no `toLowerCase`. -/
def getBool (toLowerCase : String → String) : Value → Option Bool
  | .bool b => some b
  | .number n =>
    match F64.ofNumber n with
    | .finite x => if x.value = 0 then some false else some true
    | _ => some true
  | .string s =>
    let s := toLowerCase s
    if s = "t" ∨ s = "true" ∨ s = "on" ∨ s = "1" then some true
    else if s = "f" ∨ s = "false" ∨ s = "off" ∨ s = "0" then some false
    else none
  | _ => none

/-- `x < q` -/
def below : F64 → ℤ → Bool
  | .finite x, q => x.value < q
  | .infinity neg, _ => neg
  | .nan, _ => false

/-- `q < x` -/
def above : F64 → ℤ → Bool
  | .finite x, q => q < x.value
  | .infinity neg, _ => !neg
  | .nan, _ => false

/-- `getIntInRange` -/
def getIntInRange (min max : ℤ) (v : Value) : Option F64 :=
  (getInt v).filter fun x => !(below x min || above x max)

/-- `getStringLimitLength` -/
def getStringLimitLength (min max : ℕ) : Value → Option String
  | .string s =>
    if utf16Length s ≠ 0 ∧ utf16Length s > max then none
    else if utf16Length s ≠ 0 ∧ utf16Length s < min then none
    else some (trimSpaces s)
  | _ => none

def WIRE_VOTE_MIN : ℤ := min VoteChoice.agree.wire (min VoteChoice.disagree.wire VoteChoice.pass.wire)

def WIRE_VOTE_MAX : ℤ := max VoteChoice.agree.wire (max VoteChoice.disagree.wire VoteChoice.pass.wire)

mutual

/-- Whether a template literal can show a value: an object whose `toString` is hidden by a member has no
primitive value. -/
def prints : Value → Bool
  | .array items => printsItems items
  | .object members => members.all (·.1 ≠ "toString")
  | _ => true

def printsItems : List Value → Bool
  | [] => true
  | v :: l => prints v && printsItems l

end

/-- How a middleware ends a request with status 400. -/
inductive Code
  | polis_err_param_missing
  | polis_err_param_parse_failed
  | polis_err_misc
deriving DecidableEq, Repr

/-- The middleware that fails, by its field. -/
structure Failure where
  name : String
  code : Code
deriving DecidableEq, Repr

/-- `_buildCallback`: what the middleware assigns. -/
def buildCallback {α : Type} (name : String) (parser : Value → Option α) (required : Bool) (defaultVal : Option α)
    (val : Option Value) : Except Failure (Option α) :=
  match val with
  | none | some .null => if required then .error ⟨name, .polis_err_param_missing⟩ else .ok defaultVal
  | some v =>
    match parser v with
    | some parsed => .ok (some parsed)
    | none => .error ⟨name, if prints v then .polis_err_param_parse_failed else .polis_err_misc⟩

def need {α : Type} (name : String) (parser : Value → Option α) (val : Option Value) : Except Failure (Option α) :=
  buildCallback name parser true none val

def want {α : Type} (name : String) (parser : Value → Option α) (defaultVal : Option α) (val : Option Value) :
    Except Failure (Option α) := buildCallback name parser false defaultVal val

/-- What the middlewares assign to `req.p`. -/
structure Parameters where
  tid : Option F64
  vote : Option F64
  starred : Option Bool
  high_priority : Option Bool
  lang : Option String

/-- The middlewares of `POST /api/v3/votes` after membership. -/
def post_votes (toLowerCase : String → String) (body : Request) : Except Failure Parameters := do
  let tid ← need "tid" getInt body.tid
  let vote ← need "vote" (getIntInRange WIRE_VOTE_MIN WIRE_VOTE_MAX) body.vote
  let starred ← want "starred" (getBool toLowerCase) none body.starred
  let high_priority ← want "high_priority" (getBool toLowerCase) (some false) body.high_priority
  let lang ← want "lang" (getStringLimitLength 1 10) none body.lang
  return ⟨tid, vote, starred, high_priority, lang⟩

end Polis.VoteFields
