import Polis.Common.Binary64
import Polis.Common.JsonEncode

/-!
# The JSON of the run records

A number is a finite double, written as JavaScript writes it. A record keeps its keys in JavaScript's
order: array indices first, ascending, then the other keys as they were added.

Reference: `queue-rs/polis-contracts/src/wire.rs`.
-/

namespace Polis.Wire

open Binary64 JsonText

/-- A value that a contract type refuses. -/
inductive Invalid
  | duplicateKey (text : String)
  | notFinite
deriving DecidableEq, Repr

/-! ## Numbers -/

/-- A finite double; the two zeros are equal. -/
structure JsNumber where
  value : ℚ
  isDouble : IsDouble value

theorem JsNumber.ext {x y : JsNumber} (h : x.value = y.value) : x = y := by
  cases x
  cases y
  cases h
  rfl

/-- The double that a number in a text is read as. -/
def JsNumber.new (q : ℚ) : Except Invalid JsNumber :=
  match h : nearest q with
  | some x => .ok ⟨x, isDouble_of_nearest h⟩
  | none => .error .notFinite

def JsNumber.neg (x : JsNumber) : JsNumber := ⟨-x.value, x.isDouble.neg⟩

/-- `MAX_SAFE_INTEGER` -/
def maxSafeInteger : ℚ := 2 ^ 53

/-- `format!("{x:e}")` of a positive number with these digits, the first of which stands for a multiple
of ten to the exponent. -/
def lowerExp (digits : List Char) (exponent : ℤ) : List Char :=
  digits.take 1 ++ (if digits.drop 1 = [] then [] else '.' :: digits.drop 1) ++
    'e' :: (toString exponent).toList

/-- `split_once` -/
def splitOnce (c : Char) (l : List Char) : Option (List Char × List Char) :=
  if c ∈ l then some (l.takeWhile (· ≠ c), (l.dropWhile (· ≠ c)).tail) else none

/-- `parse::<i64>` -/
def parseI64 (l : List Char) : Option ℤ :=
  let digits := if l.head? = some '-' ∨ l.head? = some '+' then l.tail else l
  let n : ℤ := if l.head? = some '-' then -digitsValue digits else digitsValue digits
  if digits ≠ [] ∧ digits.all Char.isDigit ∧ -2 ^ 63 ≤ n ∧ n < 2 ^ 63 then some n else none

/-- What `js_number` makes of the scientific notation of a positive number. -/
def layout (scientific : List Char) : List Char :=
  let (mantissa, exponent) := (splitOnce 'e' scientific).getD (scientific, ['0'])
  let digits := mantissa.filter Char.isDigit
  let k : ℤ := digits.length
  let n := (parseI64 exponent).getD 0 + 1
  if k ≤ n ∧ n ≤ 21 then digits ++ List.replicate (n - k).toNat '0'
  else if 0 < n ∧ n ≤ 21 then digits.take n.toNat ++ '.' :: digits.drop n.toNat
  else if -6 < n ∧ n ≤ 0 then '0' :: '.' :: (List.replicate (-n).toNat '0' ++ digits)
  else
    let e := n - 1
    let sign := if e < 0 then '-' else '+'
    let rest := if digits.drop 1 = [] then [] else '.' :: digits.drop 1
    digits.take 1 ++ rest ++ 'e' :: sign :: (toString e.natAbs).toList

/-- The shortest digits of a positive number. -/
def JsNumber.shortest (x : JsNumber) (h : 0 < x.value) : ℕ × ℤ :=
  Binary64.shortest x.value (exists_candidate x.isDouble h)

/-- `{:e}` -/
def JsNumber.scientific (x : JsNumber) (h : 0 < x.value) : List Char :=
  let digits := Nat.toDigits 10 (x.shortest h).1
  lowerExp digits ((x.shortest h).2 + (digits.length - 1))

theorem JsNumber.neg_pos {x : JsNumber} (h : x.value < 0) : 0 < x.neg.value := neg_pos_of_neg h

def js_number (x : JsNumber) : List Char :=
  if h : 0 < x.value then layout (x.scientific h)
  else if h : x.value < 0 then '-' :: layout (x.neg.scientific (JsNumber.neg_pos h))
  else ['0']

/-- `JsNumber::serialize` -/
def encodeNumber (x : JsNumber) : List Char :=
  if x.value.den = 1 ∧ |x.value| ≤ maxSafeInteger then (toString x.value.num).toList else js_number x

/-! ## Records -/

def array_index (key : String) : Option ℕ :=
  let l := key.toList
  if l ≠ [] ∧ l.all Char.isDigit ∧ (l = ['0'] ∨ l.head? ≠ some '0') ∧ digitsValue l < 2 ^ 32 - 1 then
    some (digitsValue l)
  else none

structure JsMap (α : Type*) where
  entries : List (String × α)
  seen : List String
  indexed : ℕ

namespace JsMap

variable {α : Type*}

def new : JsMap α := ⟨[], [], 0⟩

/-- `partition_point`, of a slice that `p` parts in two. -/
def partitionPoint (l : List (String × α)) (p : String × α → Bool) : ℕ := (l.takeWhile p).length

def insert (m : JsMap α) (key : String) (value : α) : Except Invalid (JsMap α) :=
  if key ∈ m.seen then .error (.duplicateKey key)
  else
    let seen := key :: m.seen
    match array_index key with
    | some n =>
      let at' := partitionPoint (m.entries.take m.indexed) fun e => (array_index e.1).any (· < n)
      .ok ⟨m.entries.insertIdx at' (key, value), seen, m.indexed + 1⟩
    | none => .ok ⟨m.entries ++ [(key, value)], seen, m.indexed⟩

def extend (m : JsMap α) (entries : List (String × α)) : Except Invalid (JsMap α) :=
  entries.foldlM (fun m e => m.insert e.1 e.2) m

def try_from_entries (entries : List (String × α)) : Except Invalid (JsMap α) := new.extend entries

end JsMap

/-! ## Values -/

abbrev Value := Json JsNumber

/-- The members are those of a map that was filled by inserting. -/
def IsRecord (m : List (String × Value)) : Prop :=
  ∃ entries, (JsMap.try_from_entries entries).map JsMap.entries = .ok m

mutual

/-- Every object is a record. -/
def Made : Value → Prop
  | .array a => MadeItems a
  | .object m => IsRecord m ∧ MadeMembers m
  | _ => True

def MadeItems : List Value → Prop
  | [] => True
  | v :: a => Made v ∧ MadeItems a

def MadeMembers : List (String × Value) → Prop
  | [] => True
  | (_, v) :: m => Made v ∧ MadeMembers m

end

/-- `to_json` -/
def encode (v : Value) : List Char := Json.text encodeNumber v

def decodeString (s : Str) : Option String :=
  (JsonText.decode () (.ok (Char.ofNat 0)) s).toOption.map String.ofList

/-- `visit_u64`, `visit_i64` and `visit_f64`: all round to the nearest double. -/
def decodeNumber (n : Number) : Option JsNumber := (JsNumber.new n.value).toOption

mutual

/-- `Json::deserialize` -/
def decodeTree : Tree → Option Value
  | .null => some .null
  | .bool b => some (.bool b)
  | .number n => (decodeNumber n).map .number
  | .string s => (decodeString s).map .string
  | .array items => (decodeItems items).map .array
  | .object members => (decodeMembers members .new).map fun m => .object m.entries

def decodeItems : List Tree → Option (List Value)
  | [] => some []
  | v :: items => do
    let x ← decodeTree v
    let a ← decodeItems items
    pure (x :: a)

def decodeMembers : List (Str × Tree) → JsMap Value → Option (JsMap Value)
  | [], m => some m
  | (k, v) :: members, m => do
    let key ← decodeString k
    let value ← decodeTree v
    let m ← (m.insert key value).toOption
    decodeMembers members m

end

/-- The limit of `serde_json` on the depth. -/
def maxDepth : ℕ := 127

/-- `serde_json::from_str::<Json>` -/
def decode (text : List Char) : Option Value := do
  let t ← parse text
  if maxDepth < t.depth then none else decodeTree t

end Polis.Wire
