import Polis.Common.Json

/-!
# The storage text of a payload

The coordinator hashes a payload with its numbers written out in full, and so does the database. The
one edits the text of each number, the other computes with `numeric`.

Reference: `coordinator-rs/src/store.rs` (`storage_digest`),
`server/postgres/migrations/000021_create_polis_coordinator.sql` (`pc_canonical`).
-/

namespace Polis.Coordinator

open Json

abbrev Text := List Char

/-! ## Number tokens -/

/-- The part of a token from `e` or `E` on. -/
structure Exponent where
  upper : Bool
  sign : Option Bool
  digits : Text
  digits_ne : digits ≠ []
  digits_ok : Digits digits

/-- A decimal literal; without digits of a fraction it has no point. -/
structure Literal where
  negative : Bool
  whole : Text
  fraction : Text
  exponent : Option Exponent
  whole_ne : whole ≠ []
  whole_ok : Digits whole
  fraction_ok : Digits fraction

def Exponent.signText (e : Exponent) : Text :=
  match e.sign with
  | none => []
  | some true => ['-']
  | some false => ['+']

def Exponent.text (e : Exponent) : Text :=
  (if e.upper then 'E' else 'e') :: (e.signText ++ e.digits)

def Literal.mantissa (l : Literal) : Text :=
  (if l.negative then ['-'] else []) ++ (l.whole ++ if l.fraction = [] then [] else '.' :: l.fraction)

/-- The token as it stands in the document. -/
def Literal.text (l : Literal) : Text := l.mantissa ++ (l.exponent.map (·.text)).getD []

def Exponent.value (e : Exponent) : ℤ :=
  if e.sign = some true then -digitsValue e.digits else digitsValue e.digits

/-- The power of ten of the token. -/
def Literal.power (l : Literal) : ℤ := (l.exponent.map (·.value)).getD 0

/-- The count of digits after the point once the power of ten is applied. -/
def Literal.scale (l : Literal) : ℤ := l.fraction.length - l.power

/-- The number, exactly. -/
def Literal.value (l : Literal) : ℚ :=
  (if l.negative then -1 else 1) * digitsValue (l.whole ++ l.fraction) * 10 ^ (-l.scale)

/-- A JSON value: no object has one key twice, or `wire::parse` refuses the document. -/
def Value : Type := { v : Json Literal // distinct v = true }

/-! ## The coordinator -/

/-- `str::split_once`. -/
def splitOnce (p : Char → Bool) : Text → Option (Text × Text)
  | [] => none
  | c :: t => if p c then some ([], t) else (splitOnce p t).map fun q => (c :: q.1, q.2)

/-- The sign and the digits that `i32::from_str` reads. -/
def signedDigits : Text → Bool × Text
  | '+' :: t => (false, t)
  | '-' :: t => (true, t)
  | t => (false, t)

/-- `str::parse::<i32>`. -/
def parseI32 (t : Text) : Option ℤ :=
  if (signedDigits t).2 ≠ [] ∧ (signedDigits t).2.all Char.isDigit then
    let n : ℤ := digitsValue (signedDigits t).2
    let n := if (signedDigits t).1 then -n else n
    if -2 ^ 31 ≤ n ∧ n < 2 ^ 31 then some n else none
  else none

/-- `i32` arithmetic in a release build. -/
def wrapI32 (n : ℤ) : ℤ := n.bmod (2 ^ 32)

/-- Zeros in front, but for one digit and for the zero before the point. -/
def stripFront : Text → Text
  | '0' :: c :: t => if c = '.' then '0' :: c :: t else stripFront (c :: t)
  | t => t

/-- The digits with `scale` of them after the point, without superfluous zeros. -/
def expand (digits : Text) (scale : ℤ) : Option Text :=
  if scale ≤ 0 then
    -- The negation of `i32::MIN` wraps to a size that no vector has.
    if scale = -2 ^ 31 then none
    else some (stripFront (digits ++ List.replicate (-scale).toNat '0'))
  else
    let padded := List.replicate (scale.toNat + 1 - digits.length) '0' ++ digits
    let place := padded.length - scale.toNat
    let trimmed := (padded.take place ++ '.' :: padded.drop place).rdropWhile (· == '0')
    some (stripFront (if trimmed.getLast? = some '.' then trimmed.dropLast else trimmed))

/-- The mantissa and the exponent of a token. -/
def splitExponent (text : Text) : Option (Text × ℤ) :=
  match splitOnce (fun c => c == 'e' || c == 'E') text with
  | some (m, e) => (parseI32 e).map fun n => (m, n)
  | none => some (text, 0)

/-- `number`. -/
def number (text : Text) : Option Text := do
  let (mantissa, exponent) ← splitExponent text
  let negative := mantissa.head? = some '-'
  let unsigned := mantissa.dropWhile (· == '-')
  let fractional := wrapI32 (((splitOnce (· == '.') unsigned).map fun q => (q.2.length : ℤ)).getD 0)
  let digits ← expand (unsigned.filter (· != '.')) (wrapI32 (fractional - exponent))
  return if negative ∧ digits ≠ ['0'] then '-' :: digits else digits

section Encode

variable (toWriter : String → Text)

mutual

/-- `encode`; strings are left to `serde_json::to_writer`. -/
def encode : Json Literal → Option Text
  | .null => some ['n', 'u', 'l', 'l']
  | .bool true => some ['t', 'r', 'u', 'e']
  | .bool false => some ['f', 'a', 'l', 's', 'e']
  | .number n => number n.text
  | .string s => some (toWriter s)
  | .array a => (encodeItems a).map fun parts => '[' :: joinComma parts ++ [']']
  | .object m => (encodeMembers m).map fun parts => '{' :: joinComma parts ++ ['}']

def encodeItems : List (Json Literal) → Option (List Text)
  | [] => some []
  | v :: a => do
    let t ← encode v
    let ts ← encodeItems a
    return t :: ts

def encodeMembers : List (String × Json Literal) → Option (List Text)
  | [] => some []
  | (k, v) :: m => do
    let t ← encode v
    let ts ← encodeMembers m
    return (toWriter k ++ ':' :: t) :: ts

end

/-- The bytes of a key. -/
def keyBytes (k : String) : List ℕ := k.toByteArray.data.toList.map UInt8.toNat

/-- A `serde_json::Map` is in the order of the bytes of its keys. -/
def Value.toMap (v : Value) : Json Literal := arrange keyBytes id v.1

/-- What `storage_digest` hashes, or its error. -/
def storageText (v : Value) : Option Text := encode toWriter v.toMap

end Encode

/-! ## The database -/

/-- The number as `numeric_in` reads it, exactly. -/
def Literal.decimal (l : Literal) : Decimal :=
  ⟨(if l.negative then -1 else 1) * digitsValue (l.whole ++ l.fraction) * 10 ^ (-l.scale).toNat,
    l.scale.toNat⟩

/-- The limits of `numeric`: the exponent, the digits after the point and those before it. -/
def Literal.isNumeric (l : Literal) : Bool :=
  -((2 ^ 31 - 1) / 2) < l.power && l.power < (2 ^ 31 - 1) / 2 && l.scale ≤ 16383 &&
    (Nat.toDigits 10 (l.decimal.mantissa.natAbs / 10 ^ l.decimal.scale)).length ≤ 131072

/-- `jsonb` keeps the members in the order of the lengths of their keys, then of their bytes. -/
def jsonbKey (k : String) : List ℕ := (keyBytes k).length :: keyBytes k

/-- `jsonb` refuses numbers out of range and the character zero. -/
def toJsonb (v : Value) : Option (Json Decimal) :=
  if v.1.all Literal.isNumeric (fun s => s.toList.all (· != Char.ofNat 0)) then
    some (arrange jsonbKey Literal.decimal v.1)
  else none

mutual

/-- `pc_canonical`. -/
def pcCanonical : Json Decimal → Text
  | .object m =>
    '{' :: joinComma ((sortMembers keyBytes (pcMembers m)).map fun p => quote p.1 ++ ':' :: p.2)
      ++ ['}']
  | .array a => '[' :: joinComma (pcItems a) ++ [']']
  | .number n => if n.mantissa = 0 then ['0'] else n.trimScale.text
  | .null => ['n', 'u', 'l', 'l']
  | .bool true => ['t', 'r', 'u', 'e']
  | .bool false => ['f', 'a', 'l', 's', 'e']
  | .string s => quote s

def pcItems : List (Json Decimal) → List Text
  | [] => []
  | v :: a => pcCanonical v :: pcItems a

def pcMembers : List (String × Json Decimal) → List (String × Text)
  | [] => []
  | (k, v) :: m => (k, pcCanonical v) :: pcMembers m

end

end Polis.Coordinator
