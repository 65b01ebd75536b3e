import Polis.Common.Binary64
import Polis.Common.Json
import Mathlib.Data.Prod.Lex
import Mathlib.Data.String.Basic

/-!
# Paged reads of served results

A Query or a Scan of the served rows of one family, a page at a time. The server walks the rows in the
order of their keys by `pd_result_page`, in chunks, and gives the position of the last row of a full page as
`LastEvaluatedKey`. A condition that the walk does not support is answered from all rows of the family.

Reference: `server/src/utils/delphiResults.ts`, `server/postgres/migrations/000031_scope_delphi_result_reads.sql`.
-/

namespace Polis.Delphi.Reads

open Binary64

/-! ## Rows -/

inductive KeyType
  | S
  | N
deriving DecidableEq, Repr

/-- A stored `AttributeValue`; the text of a number is its canonical decimal. -/
inductive AV
  | S (s : String)
  | N (d : Decimal)
  | B (base64 : String)
  | BOOL (b : Bool)
  | NULL
  | SS (l : List String)
  | NS (l : List Decimal)
  | BS (l : List String)
  | L (l : List AV)
  | M (m : List (String × AV))

abbrev Stored := List (String × AV)

/-- The attribute that a name has in an item. -/
def attr {α : Type*} (item : List (String × α)) (name : String) : Option α :=
  (item.find? (·.1 = name)).map Prod.snd

/-- A part of a key. -/
inductive KeyPart
  | S (s : String)
  | N (d : Decimal)
deriving DecidableEq

/-- A row of the family, with the scope and the conversation that serve it. -/
structure Row where
  zid : ℤ
  scope_key : String
  item_key : List KeyPart
  item : Stored

/-! ## Sizes -/

/-- The bytes of a base64 text. -/
def base64Bytes (s : String) : ℕ := (s.toList.filter (· ≠ '=')).length * 3 / 4

/-- Pairs of digits, none of them zero at an end. -/
def digitPairs : List Char → List (Char × Char)
  | a :: b :: l => (a, b) :: digitPairs l
  | _ => []

def numberBytes (d : Decimal) : ℕ :=
  let whole := Nat.toDigits 10 (d.mantissa.natAbs / 10 ^ d.scale)
  let fraction := lastDigits d.scale d.mantissa.natAbs
  let whole := if whole.length % 2 = 1 then '0' :: whole else whole
  let fraction := if fraction.length % 2 = 1 then fraction ++ ['0'] else fraction
  let pairs := (digitPairs (whole ++ fraction)).dropWhile (· = ('0', '0'))
  let pairs := pairs.rdropWhile (· = ('0', '0'))
  1 + pairs.length + if d.mantissa < 0 then 1 else 0

mutual

def attributeBytes : AV → ℕ
  | .S s => s.utf8ByteSize
  | .N d => numberBytes d
  | .B b => base64Bytes b
  | .BOOL _ => 1
  | .NULL => 1
  | .SS l => (l.map String.utf8ByteSize).sum
  | .NS l => (l.map numberBytes).sum
  | .BS l => (l.map base64Bytes).sum
  | .L l => 3 + listBytes l
  | .M m => 3 + mapBytes m

def listBytes : List AV → ℕ
  | [] => 0
  | v :: l => 1 + attributeBytes v + listBytes l

def mapBytes : List (String × AV) → ℕ
  | [] => 0
  | (k, v) :: m => 1 + k.utf8ByteSize + attributeBytes v + mapBytes m

end

def itemBytes (item : Stored) : ℕ := (item.map fun p => p.1.utf8ByteSize + attributeBytes p.2).sum

/-! ## Decoding -/

/-- A decoded value; an array, a map, a set or a buffer is equal to itself only. -/
inductive JsVal
  | str (s : String)
  | num (x : Double)
  | bool (b : Bool)
  | null
  | object (name : String)
deriving DecidableEq

abbrev Item := List (String × JsVal)

def maxSafeInteger : ℚ := 2 ^ 53 - 1

/-- The number of an `N`; an integer must be a safe one. -/
def decodeNumber (d : Decimal) : Except String Double :=
  match Double.round d.value with
  | none => .error "result numeric value exceeds reader precision"
  | some x =>
    if x.value.den = 1 ∧ maxSafeInteger < |x.value| then
      .error "result numeric value exceeds reader precision"
    else .ok x

mutual

/-- The numbers within a value. -/
def numbers : AV → List Decimal
  | .N d => [d]
  | .NS l => l
  | .L l => numbersList l
  | .M m => numbersMap m
  | _ => []

def numbersList : List AV → List Decimal
  | [] => []
  | v :: l => numbers v ++ numbersList l

def numbersMap : List (String × AV) → List Decimal
  | [] => []
  | (_, v) :: m => numbers v ++ numbersMap m

end

def decodeAttribute (name : String) (value : AV) : Except String JsVal := do
  let _ ← (numbers value).mapM decodeNumber
  match value with
  | .S s => pure (.str s)
  | .N d => (decodeNumber d).map .num
  | .BOOL b => pure (.bool b)
  | .NULL => pure .null
  | _ => pure (.object name)

def decodeItem (item : Stored) : Except String Item :=
  item.mapM fun p => (decodeAttribute p.1 p.2).map fun v => (p.1, v)

/-- `canonicalNumber(String(value))` -/
def canonicalDouble (x : Double) : Except String Decimal :=
  let lead := x.digits.2 + (Nat.toDigits 10 x.digits.1).length - 1
  if x.digits.1 = 0 then .ok ⟨0, 0⟩
  else if 125 < lead ∨ lead < -130 then .error "N outside DynamoDB's range"
  else .ok x.decimal

/-- `tagged`: the stored key value that a query value must equal. A truth value is stored in no key. -/
def tagged : Option JsVal → Except String (Option KeyPart)
  | some (.str s) => .ok (some (.S s))
  | some (.num x) => (canonicalDouble x).map fun d => some (.N d)
  | _ => .ok none

/-! ## Conditions -/

/-- A clause of an expression. -/
inductive Clause
  | equal (left right : String)
  | begins (field value : String)
deriving DecidableEq

structure Input where
  /-- `FAMILIES[family].key` -/
  hash : String × KeyType
  range : Option (String × KeyType)
  scan : Bool
  keyCondition : List Clause
  filter : List Clause
  /-- `ExpressionAttributeNames` -/
  names : List (String × String)
  /-- `ExpressionAttributeValues` -/
  values : List (String × JsVal)
  scanIndexForward : Bool

def Input.keys (input : Input) : List String := input.hash.1 :: (input.range.map Prod.fst).toList

/-- The type of the last key attribute. -/
def Input.rangeType (input : Input) : KeyType := (input.range.getD input.hash).2

/-- The last key attribute. -/
def Input.last (input : Input) : String := (input.range.getD input.hash).1

/-- `input.ExpressionAttributeNames?.[token] || token` -/
def Input.name (input : Input) (token : String) : String :=
  match attr input.names token with
  | some name => if name = "" then token else name
  | none => token

def isValueToken (token : String) : Bool := token.toList.head? = some ':'

def Input.resolve (input : Input) (token : String) (item : Item) : Option JsVal :=
  if isValueToken token then attr input.values token else attr item (input.name token)

/-- `String(value ?? "")`; `shown` prints what is not a text. -/
def text (shown : JsVal → String) : Option JsVal → String
  | some (.str s) => s
  | none | some .null => ""
  | some v => shown v

/-- `String(value)` -/
def stringOf (shown : JsVal → String) : Option JsVal → String
  | some (.str s) => s
  | some v => shown v
  | none => "undefined"

section Read

variable (shown : JsVal → String)

def predicate (expression : List Clause) (input : Input) (item : Item) : Bool :=
  expression.all fun
    | .equal left right => input.resolve left item = input.resolve right item
    | .begins field value =>
      (stringOf shown (input.resolve value item)).toList.isPrefixOf (text shown (input.resolve field item)).toList

/-- What `conditions` finds of an expression. -/
structure Conditions where
  equals : List (String × Option JsVal)
  prefixes : List (String × Option JsVal)
  other : Bool

def conditions (expression : List Clause) (input : Input) : Conditions :=
  expression.foldl (fun c clause => match clause with
    | .equal left right =>
      if ¬isValueToken left ∧ isValueToken right then
        { c with equals := (input.name left, attr input.values right) :: c.equals }
      else { c with other := true }
    | .begins field value =>
      { c with prefixes := (input.name field, attr input.values value) :: c.prefixes })
    ⟨[], [], false⟩

/-- `typeof value === "string" ? value.split(separator)[0] : value` -/
def firstPart (separator : Char) : Option JsVal → Option JsVal
  | some (.str s) => some (.str (.ofList (s.toList.takeWhile (· ≠ separator))))
  | v => v

/-- A conversation that is named by at most nine digits, or by a safe integer. -/
def zidNumber : Option JsVal → Option ℤ
  | some (.str s) =>
    if s.toList ≠ [] ∧ s.toList.length ≤ 9 ∧ s.toList.all Char.isDigit then
      some (digitsValue s.toList) else none
  | some (.num x) => if x.value.den = 1 ∧ |x.value| ≤ maxSafeInteger then some x.value.num else none
  | _ => none

/-- The rows of `reports`. -/
abbrev Reports := List (String × ℤ)

/-- The conversations of the reports whose id is accepted. -/
def reportZids (reports : Reports) (p : String → Bool) : List ℤ := (reports.filter (p ·.1)).map Prod.snd

/-- The conversation that an equality names. -/
def namedZid (equals : List (String × Option JsVal)) :
    List (String × Option Char) → Option (Option ℤ)
  | [] => none
  | (name, separator) :: split => match attr equals name with
      | some value => some (zidNumber (separator.elim value (firstPart · value)))
      | none => namedZid equals split

def zidAttributes : List (String × Option Char) :=
  [("conversation_id", none), ("zid", none), ("zid_tick", some ':'), ("zid_tick_gid", some ':'),
    ("zid_topic_jobid", some '#')]

/-- The text that an attr must equal. -/
def equalText (equals : List (String × Option JsVal)) (name : String) : Option String :=
  match attr equals name with
  | some (some (.str s)) => some s
  | _ => none

/-- What stands before the first `#`. -/
def beforeHash (s : String) : String := .ofList (s.toList.takeWhile (· ≠ '#'))

/-- `zidScope`; `none` is any conversation. -/
def zidScope (reports : Reports) (c : Conditions) : Except String (Option (List ℤ)) :=
  match namedZid c.equals zidAttributes with
  | some none => .ok (some [])
  | some (some zid) =>
    if -2 ^ 31 ≤ zid ∧ zid < 2 ^ 31 then .ok (some [zid]) else .error "integer out of range"
  | none =>
    match equalText c.equals "rid_section_model" <|> equalText c.equals "report_id" with
    | some s => .ok (some (reportZids reports (· = beforeHash s)))
    | none =>
      -- `??` also passes over a prefix that is not given
      match ((attr c.prefixes "rid_section_model").join.filter (· ≠ .null)) <|>
          (attr c.prefixes "report_id").join with
      | some (.str s) =>
        if '#' ∈ s.toList then .ok (some (reportZids reports (· = beforeHash s)))
        else .ok (some (reportZids reports (s.toList.isPrefixOf ·.toList)))
      | _ => .ok none

/-! ## The page of the server -/

/-- `{"S": "…"}`, `{"N": "…"}` or `{"NULL": true}` -/
def jsonbChars : Option KeyPart → List Char
  | some (.S s) => ['\x7b', '"', 'S', '"', ':', ' '] ++ Polis.Json.quote s ++ ['\x7d']
  | some (.N d) => ['\x7b', '"', 'N', '"', ':', ' ', '"'] ++ d.text ++ ['"', '\x7d']
  | none => ['\x7b', '"', 'N', 'U', 'L', 'L', '"', ':', ' ', 't', 'r', 'u', 'e', '\x7d']

/-- The text of a key value, as `jsonb` prints it. -/
def jsonbText (a : Option KeyPart) : String := .ofList (jsonbChars a)

/-- The range key as a number or as a text, the hash key, the conversation and the scope; texts are in the
order of their bytes, which is that of their code points. -/
abbrev Place := WithBot (WithTop ℚ) ×ₗ String ×ₗ String ×ₗ ℤ ×ₗ String

def place (n : WithBot (WithTop ℚ)) (t h : String) (z : ℤ) (s : String) : Place :=
  toLex (n, toLex (t, toLex (h, toLex (z, s))))

/-- `COALESCE((item_key->-1->>'N')::numeric,0)` -/
def Row.sort_n (r : Row) : ℚ :=
  match r.item_key.getLast? with
  | some (.N d) => d.value
  | _ => 0

/-- `COALESCE(item_key->-1->>'S','')` -/
def Row.sort_t (r : Row) : String :=
  match r.item_key.getLast? with
  | some (.S s) => s
  | _ => ""

def Row.hash_t (r : Row) : String := jsonbText r.item_key.head?

def Row.place (r : Row) : Place :=
  Reads.place ((r.sort_n : WithTop ℚ) : WithBot (WithTop ℚ)) r.sort_t r.hash_t r.zid r.scope_key

/-- `p_after`, some of whose members may be missing. -/
structure After where
  n : Option ℚ
  t : Option String
  h : Option String
  z : Option ℤ
  s : Option String
deriving DecidableEq

/-- The position that `p_after` stands for, with the defaults of the missing members. -/
def After.place (backward : Bool) (a : Option After) : Place :=
  let member := fun {α : Type} (f : After → Option α) => a.bind f
  Reads.place ((member After.n).elim (if backward then ((⊤ : WithTop ℚ) : WithBot (WithTop ℚ)) else ⊥)
      fun n => ((n : WithTop ℚ) : WithBot (WithTop ℚ)))
    ((member After.t).getD "") ((member After.h).getD "")
    ((member After.z).getD (if backward then 2147483647 else -2147483648)) ((member After.s).getD "")

/-- What `pd_result_page` is asked for. -/
structure Ask where
  zids : Option (List ℤ)
  scope : String
  /-- A value that is no key value equals none. -/
  hash : Option (Option KeyPart)
  sortEq : Option (Option KeyPart)
  sortPrefix : Option String
  backward : Bool

/-- The conditions that do not depend on the cursor. -/
def Ask.keeps (q : Ask) (r : Row) : Bool :=
  q.zids.all (r.zid ∈ ·) && r.scope_key = q.scope &&
    q.hash.all (fun v => v.isSome && r.item_key.head? = v) &&
    q.sortEq.all (fun v => v.isSome && r.item_key.getLast? = v) &&
    q.sortPrefix.all fun p => match r.item_key.getLast? with
      | some (.S s) => p.toList.isPrefixOf s.toList
      | _ => false

/-- `ROW(…) > ROW(…)`, or `<` for a backward read. -/
def beyond (backward : Bool) (a b : Place) : Bool := if backward then b < a else a < b

/-- The range parts are at or after those of the cursor. -/
def notBefore (backward : Bool) (a : Place) (r : Row) : Bool :=
  let key : WithBot (WithTop ℚ) ×ₗ String := toLex (((r.sort_n : WithTop ℚ) : WithBot (WithTop ℚ)), r.sort_t)
  let start : WithBot (WithTop ℚ) ×ₗ String := toLex ((ofLex a).1, (ofLex (ofLex a).2).1)
  if backward then key ≤ start else start ≤ key

/-- The order of a read. -/
def inOrder (backward : Bool) (l : List Row) : List Row :=
  l.insertionSort fun a b => if backward then b.place ≤ a.place else a.place ≤ b.place

/-- `pd_result_page`, on the served rows of the family. -/
def pd_result_page (rows : List Row) (q : Ask) (after : Option After) (limit : Option ℕ) : List Row :=
  let selected := inOrder q.backward <| rows.filter fun r =>
    q.keeps r && notBefore q.backward (After.place q.backward after) r &&
      (after.isNone || beyond q.backward (After.place q.backward after) r.place)
  limit.elim selected selected.take

/-! ## The read -/

/-- `DYNAMO_PAGE_BYTES` -/
def pageBytes : ℕ := 1024 * 1024

def pageFull (count bytes : ℕ) (limit : Option ℕ) : Bool := limit.any (· ≤ count) || pageBytes ≤ bytes

structure Candidate where
  row : Row
  item : Item
  bytes : ℕ
  after : Option After

/-- `LastEvaluatedKey`: the key attributes, with the private position of a walk. -/
structure LastKey where
  key : Item
  polisPgAfter : Option After

structure Reply where
  items : List Item
  /-- The rows that were read for the page. -/
  scanned : List Row
  lastKey : Option LastKey

/-- The key attributes of an item. -/
def keyOf (input : Input) (item : Item) : Item :=
  input.keys.filterMap fun k => (attr item k).map (k, ·)

/-- The position that a cursor of key attributes alone is taken for. -/
def keyAfter (input : Input) (backward : Bool) (start : Item) : Except String After := do
  let hash ← tagged (attr start input.hash.1)
  let last := attr start input.last
  let n ← match input.rangeType, last with
    | .N, some (.num x) => pure (some x.decimal.value)
    | .N, _ => throw "invalid input syntax for type numeric"
    | .S, _ => pure none
  pure {
    n := n
    t := match input.rangeType, last with
      | .N, _ => some ""
      | .S, some (.str s) => some s
      | .S, _ => none
    h := some (jsonbText hash)
    z := some (if backward then -2147483648 else 2147483647)
    s := some (if backward then "" else String.singleton (Char.ofNat 0x10FFFF)) }

/-- The rows that were accepted already, by their keys. -/
abbrev Seen := List (List KeyPart × Stored)

/-- `accept`: a row whose key was seen is the same item, or the scopes are ambiguous. -/
def accept (same : Stored → Stored → Bool) (seen : Seen) (row : Row) : Except String (Bool × Seen) :=
  match seen.find? (·.1 = row.item_key) with
  | some (_, item) =>
    if same item row.item then .ok (false, seen)
    else .error "Ambiguous result scopes; configure DELPHI_RESULT_SCOPE"
  | none => .ok (true, (row.item_key, row.item) :: seen)

/-- Equality of the JSON of two stored items. -/
abbrev Same := Stored → Stored → Bool

/-- The state of a walk. -/
structure Walk where
  after : Option After
  seen : Seen
  page : List Candidate
  bytes : ℕ
  more : Bool

/-- The position after a row. -/
def Row.after (r : Row) : After :=
  ⟨some r.sort_n, some r.sort_t, some r.hash_t, some r.zid, some r.scope_key⟩

section Walk

variable (same : Same) (input : Input) (limit : Option ℕ)

/-- The loop over the rows of a chunk. -/
def walkRows : List Row → Walk → Except String Walk
  | [], w => .ok w
  | row :: rows, w => do
    let w := { w with after := some row.after }
    let (fresh, seen) ← accept same w.seen row
    let w := { w with seen := seen }
    if !fresh then walkRows rows w
    else
      let item ← decodeItem row.item
      if !(input.scan || predicate shown input.keyCondition input item) then walkRows rows w
      else
        let size := itemBytes row.item
        let page := w.page ++ [⟨row, item, size, some row.after⟩]
        let bytes := w.bytes + size
        if pageFull page.length bytes limit then .ok { w with page := page, bytes := bytes, more := true }
        else walkRows rows { w with page := page, bytes := bytes }

/-- `PAGE_CHUNK` -/
def pageChunk : ℕ := 500

variable (rows : List Row) (q : Ask)

/-- The loop over the chunks; every round but the last reads a row more. -/
def walkChunks : ℕ → Walk → Except String Walk
  | 0, w => .ok w
  | fuel + 1, w => do
    let want := limit.elim pageChunk fun n => min pageChunk (n - w.page.length)
    if want < 1 then .error "invalid result page limit"
    else
      let chunk := pd_result_page rows q w.after (some want)
      let w ← walkRows shown same input limit chunk w
      if w.more || chunk.length < want then .ok w else walkChunks fuel w

end Walk

/-- The order of index reads and of unusual conditions: the range key, then all keys. -/
def jsLt : Option JsVal → Option JsVal → Bool
  | some (.str a), some (.str b) => utf16 a.toList < utf16 b.toList
  | some (.num a), some (.num b) => a.value < b.value
  | _, _ => false
where
  /-- The code units of a string. -/
  utf16 : List Char → List ℕ
    | [] => []
    | c :: l =>
      if c.toNat < 0x10000 then c.toNat :: utf16 l
      else (0xD800 + (c.toNat - 0x10000) / 0x400) :: (0xDC00 + (c.toNat - 0x10000) % 0x400) :: utf16 l

/-- `compareFor` -/
def compareFor (fields : List String) (a b : Item) : Ordering :=
  match fields with
  | [] => .eq
  | f :: fields =>
    if jsLt (attr a f) (attr b f) then .lt
    else if jsLt (attr b f) (attr a f) then .gt
    else compareFor fields a b

def Input.order (input : Input) : List String := input.last :: input.keys

/-- `orderedCandidates` -/
def orderedCandidates (input : Input) (l : List Candidate) : List Candidate :=
  let sorted := l.insertionSort fun a b => compareFor input.order a.item b.item ≠ .gt
  if input.scanIndexForward then sorted else sorted.reverse

/-- `afterStart` -/
def afterStart (input : Input) (start : Option Item) (l : List Candidate) : List Candidate :=
  match start with
  | none => l
  | some position => l.filter fun c =>
    compareFor input.order c.item position = if input.scanIndexForward then .gt else .lt

/-- The loop of `cutPage`. -/
def cutLoop (limit : Option ℕ) : List Candidate → List Candidate → ℕ → List Candidate × ℕ
  | [], page, bytes => (page, bytes)
  | c :: l, page, bytes =>
    if pageFull page.length bytes limit then (page, bytes)
    else cutLoop limit l (page ++ [c]) (bytes + c.bytes)

def cutPage (l : List Candidate) (limit : Option ℕ) : List Candidate × Bool :=
  let (page, bytes) := cutLoop limit l [] 0
  (page, pageFull page.length bytes limit)

/-- The candidates of a read of all rows. -/
def collect (same : Same) (input : Input) : List Row → Seen → Except String (List Candidate)
  | [], _ => .ok []
  | row :: rows, seen => do
    let (fresh, seen) ← accept same seen row
    if !fresh then collect same input rows seen
    else
      let item ← decodeItem row.item
      let l ← collect same input rows seen
      if !(input.scan || predicate shown input.keyCondition input item) then pure l
      else pure (⟨row, item, itemBytes row.item, none⟩ :: l)

/-- Where the reads run: the served rows of the family, and the reports. -/
structure Source where
  rows : List Row
  reports : Reports
  scope : String
  same : Same

variable (src : Source) (input : Input)

def Input.condition : Conditions :=
  conditions (if input.scan then input.filter else input.keyCondition) input

/-- A key condition that the walk does not support. -/
def Input.unusual : Bool :=
  !input.scan && (input.condition.other || input.condition.equals.any (fun e => !input.keys.contains e.1) ||
    input.condition.prefixes.any fun e => (input.range.map Prod.fst) ≠ some e.1)

/-- The read walks the family in the order of the keys. -/
def Input.walks : Bool :=
  !input.unusual && (input.scan || (attr input.condition.equals input.hash.1).isSome)

def Input.backward : Bool := !input.scan && !input.scanIndexForward

/-- `hash` -/
def Input.hashEq : Except String (Option (Option KeyPart)) :=
  if input.scan then .ok none else (tagged (attr input.condition.equals input.hash.1).join).map some

/-- `sortEq` -/
def Input.sortEq : Except String (Option (Option KeyPart)) :=
  match input.range.bind fun k => attr input.condition.equals k.1 with
  | some v => (tagged v).map some
  | none => .ok none

/-- `sortPrefix` -/
def sortPrefix : Option String :=
  if input.scan then none
  else (input.range.bind fun k => attr input.condition.prefixes k.1).map (stringOf shown)

/-- What a walk asks for. -/
def ask (zids : Option (List ℤ)) : Except String Ask := do
  let hash ← input.hashEq
  let sortEq ← input.sortEq
  pure ⟨zids, src.scope, hash, sortEq, sortPrefix shown input, input.backward⟩

/-- The cursor of a walk. -/
def startAfter (start : Option LastKey) : Except String (Option After) :=
  match start with
  | none => .ok none
  | some k => match k.polisPgAfter with
      | some a => .ok (some a)
      | none => (keyAfter input input.backward k.key).map some

/-- `readResults` for a Query or a Scan, with a configured scope. -/
def readResults (limit : Option ℕ) (start : Option LastKey) : Except String Reply := do
  if limit = some 0 then throw "invalid result limit"
  let zids ← zidScope src.reports input.condition
  let (page, more) ←
    if input.walks then do
      let q ← ask shown src input zids
      let after ← startAfter input start
      let w ← walkChunks shown src.same input limit src.rows q (src.rows.length + 1) ⟨after, [], [], 0, false⟩
      pure (w.page, w.more)
    else do
      let all := pd_result_page src.rows ⟨zids, src.scope, none, none, none, false⟩ none none
      let l ← collect shown src.same input all []
      pure (cutPage (afterStart input (start.map (·.key)) (orderedCandidates input l)) limit)
  let items := (page.map (·.item)).filter (predicate shown input.filter input)
  let lastKey := if more then page.getLast?.map fun c => ⟨keyOf input c.item, c.after⟩ else none
  pure ⟨items, page.map (·.row), lastKey⟩

end Read

end Polis.Delphi.Reads
