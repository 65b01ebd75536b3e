import Polis.Common.Table
import Mathlib.Data.Rat.Floor
import Mathlib.Data.String.Basic

/-!
# Result reads in Python

A Query or a Scan of a result family through `PostgresTable`: all served rows of the family are decoded,
matched, merged across scopes and sorted anew for each page, and the page goes on after the position that its
cursor names.

Reference: `polismath/delphi_storage/resource.py`, `polismath/delphi_storage/codec.py`.
-/

namespace Polis.Delphi.Resource

/-! ## Values -/

/-- A value of a decoded item, as `to_python` gives it. The elements of a set are listed in the order of the
codec. -/
inductive PyValue
  | str (value : String)
  | num (value : ℚ)
  | bool (value : Bool)
  | bytes (value : List (Fin 256))
  | none
  | strs (elements : List String)
  | nums (elements : List ℚ)
  | blobs (elements : List (List (Fin 256)))
  | list (elements : List PyValue)
  | dict (entries : List (String × PyValue))

abbrev Item : Type := List (String × PyValue)

/-- `item.get(name)` -/
def get (item : Item) (name : String) : Option PyValue := (item.find? (·.1 = name)).map Prod.snd

/-- What a read raises. -/
inductive PyError
  | unsupportedCondition (operator : String)
  | unsupportedExpression (part : String)
  | keyError (name : String)
  | filterType
  | invalidNumber
  | prefixType
  | ambiguousScopes
  | typeError
  | cursorLacksIndexKey
  | invalidLimit
deriving DecidableEq, Repr

/-- The number a value counts as in comparisons: `True` is 1. -/
def PyValue.number : PyValue → Option ℚ
  | .num q => some q
  | .bool b => some (if b then 1 else 0)
  | _ => Option.none

mutual

/-- `a == b` -/
def pyEq : PyValue → PyValue → Bool
  | .str a, .str b => a = b
  | .bytes a, .bytes b => a = b
  | .none, .none => true
  | .strs a, .strs b => a = b
  | .nums a, .nums b => a = b
  | .blobs a, .blobs b => a = b
  | .list a, .list b => pyEqList a b
  | .dict a, .dict b => pyEqDict a b
  | a, b => (a.number.any fun x => b.number = some x)

/-- `==` of lists and tuples -/
def pyEqList : List PyValue → List PyValue → Bool
  | [], [] => true
  | a :: as, b :: bs => pyEq a b && pyEqList as bs
  | _, _ => false

/-- `==` of dicts, whose keys the codec has sorted -/
def pyEqDict : List (String × PyValue) → List (String × PyValue) → Bool
  | [], [] => true
  | (k, a) :: as, (l, b) :: bs => k = l && pyEq a b && pyEqDict as bs
  | _, _ => false

end

/-- `a < b` of sets: a proper subset. -/
def properSubset {α : Type} [DecidableEq α] (a b : List α) : Bool := a ≠ b && a.all (· ∈ b)

mutual

/-- `a < b` -/
def pyLt : PyValue → PyValue → Except PyError Bool
  | .str a, .str b => .ok (a < b)
  | .bytes a, .bytes b => .ok (a < b)
  | .strs a, .strs b => .ok (properSubset a b)
  | .nums a, .nums b => .ok (properSubset a b)
  | .blobs a, .blobs b => .ok (properSubset a b)
  | .list a, .list b => pyLtList a b
  | a, b =>
    match a.number, b.number with
    | some x, some y => .ok (x < y)
    | _, _ => .error .typeError

/-- `<` of lists and tuples: by the first place where they differ -/
def pyLtList : List PyValue → List PyValue → Except PyError Bool
  | [], [] => .ok false
  | [], _ :: _ => .ok true
  | _ :: _, [] => .ok false
  | a :: as, b :: bs => if pyEq a b then pyLtList as bs else pyLt a b

end

/-! ## Families -/

inductive KeyType
  | S
  | N
deriving DecidableEq, Repr

/-- The entry of a family in `FAMILIES`. -/
structure Family where
  name : String
  hash : String × KeyType
  range : Option (String × KeyType)

/-- The key attributes, hash key first. -/
def Family.key (family : Family) : List (String × KeyType) := family.hash :: family.range.toList

/-- Whether a value is of a key type. -/
def KeyType.admits : KeyType → PyValue → Prop
  | .S, v => ∃ s, v = .str s
  | .N, v => ∃ q, v = .num q

/-- A row of `delphi_result_current_rows` in the environment and the family, decoded. Its item has every key
attribute, of its type. -/
structure Record (family : Family) where
  zid : ℤ
  scope : String
  item : Item
  keyed : ∀ k ∈ family.key, ∃ v, get item k.1 = some v ∧ k.2.admits v

/-! ## Conditions -/

inductive Operator
  | eq
  | begins_with
deriving DecidableEq, Repr

/-- One clause: the operator, the attribute and the value. -/
structure Clause where
  op : Operator
  key : String
  value : PyValue

/-- A condition object. -/
inductive Condition
  | and (a b : Condition)
  | compare (op : Operator) (name : String) (value : PyValue)
  | other (operator : String)

/-- A part of an expression text between its ANDs: `name = :value`, `begins_with(name, :value)`, or a text that
matches neither. -/
inductive Part
  | compare (op : Operator) (name token : String)
  | other (text : String)

/-- A key condition or filter expression as it is given. -/
inductive Expression
  | none
  | object (condition : Condition)
  | text (parts : List Part)

/-- `_clauses` of a condition object -/
def Condition.clauses : Condition → Except PyError (List Clause)
  | .and a b => do return (← a.clauses) ++ (← b.clauses)
  | .compare op name value => .ok [⟨op, name, value⟩]
  | .other operator => .error (.unsupportedCondition operator)

/-- One part of an expression text. -/
def Part.clause (names : List (String × String)) (values : Item) : Part → Except PyError Clause
  | .compare op name token =>
    match get values token with
    | some value => .ok ⟨op, (names.lookup name).getD name, value⟩
    | Option.none => .error (.keyError token)
  | .other text => .error (.unsupportedExpression text)

/-- `_clauses` -/
def clauses (expression : Expression) (names : List (String × String)) (values : Item) :
    Except PyError (List Clause) :=
  match expression with
  | .none => .ok []
  | .object condition => condition.clauses
  | .text parts => parts.mapM (Part.clause names values)

/-- Whether `canonical_number` takes a number: at most 38 significant digits, magnitude within range. -/
def codecNumber (q : ℚ) : Bool :=
  q = 0 || ((10 : ℚ) ^ (-130 : ℤ) ≤ |q| && |q| < (10 : ℚ) ^ (126 : ℤ) &&
    (List.range 294).any fun i =>
      let r := |q| * (10 : ℚ) ^ (167 - (i : ℤ))
      r.den = 1 && r < (10 : ℚ) ^ (38 : ℤ))

/-- `_tag`: the value may be compared in SQL. -/
def tag : PyValue → Except PyError Unit
  | .str _ => .ok ()
  | .bool _ => .ok ()
  | .num q => if codecNumber q then .ok () else .error .invalidNumber
  | _ => .error .filterType

/-- The SQL that a condition becomes can be built. -/
def Clause.bind (c : Clause) : Except PyError Unit := do
  tag c.value
  match c.op, c.value with
  | .begins_with, .str _ => .ok ()
  | .begins_with, _ => .error .prefixType
  | .eq, _ => .ok ()

/-- Whether the item satisfies a clause, in Python. -/
def Clause.holds (c : Clause) (item : Item) : Bool :=
  match c.op with
  | .eq => pyEq ((get item c.key).getD .none) c.value
  | .begins_with =>
    match get item c.key, c.value with
    | some (.str s), .str p => s.toList.take p.length = p.toList
    | _, _ => false

/-- Whether the row satisfies a clause, in SQL: an equal value has the same tag. -/
def Clause.selects (c : Clause) (item : Item) : Bool :=
  match c.op with
  | .begins_with => c.holds item
  | .eq =>
    match get item c.key, c.value with
    | some (.str a), .str b => a = b
    | some (.num a), .num b => a = b
    | some (.bool a), .bool b => a = b
    | _, _ => false

/-! ## One page -/

/-- The supported indexes. -/
inductive Index
  | ConversationIndex
  | StatusCreatedIndex
  | ReportIdTimestampIndex
  | zid_created_at_index
deriving DecidableEq, Repr

/-- `index_order` -/
def Index.order : Index → String
  | .ConversationIndex => "created_at"
  | .StatusCreatedIndex => "created_at"
  | .ReportIdTimestampIndex => "timestamp"
  | .zid_created_at_index => "created_at"

/-- `index_hash` -/
def Index.hash : Index → String
  | .ConversationIndex => "conversation_id"
  | .StatusCreatedIndex => "status"
  | .ReportIdTimestampIndex => "report_id"
  | .zid_created_at_index => "zid"

/-- The parameters of a read: `DELPHI_RESULT_SCOPE`, the key condition with its `Key`, the filter, the index,
the direction and the limit. -/
structure Params where
  scope : Option String
  condition : Expression
  key : Item
  filter : Expression
  names : List (String × String)
  values : Item
  index : Option Index
  descending : Bool
  limit : ℕ

/-- What a read returns. -/
structure Page where
  items : List Item
  scannedCount : ℕ
  lastEvaluatedKey : Option Item

variable {family : Family}

/-- The key of an item. -/
def keyOf (family : Family) (item : Item) : List PyValue := family.key.filterMap fun k => get item k.1

/-- `ordering`: the index attribute before the key. -/
def ordering (family : Family) (index : Option Index) : List String :=
  (index.map Index.order).toList ++ family.key.map Prod.fst

/-- `position` -/
def position (family : Family) (index : Option Index) (item : Item) : List PyValue :=
  (ordering family index).filterMap (get item)

/-- The conditions of a read. -/
def Params.conditions (params : Params) : Except PyError (List Clause) := do
  let conditions ← clauses params.condition params.names params.values
  return conditions ++ params.key.map fun kv => ⟨.eq, kv.1, kv.2⟩

/-- The rows that the statement returns and Python keeps, in the order of the statement. -/
def matching (scope : Option String) (conditions : List Clause) (records : List (Record family)) : List Item :=
  (records.filter fun r => scope.all (r.scope = ·) && conditions.all fun c =>
    c.selects r.item && c.holds r.item).map Record.item

/-- The loop over `seen`: one item for each key, or the scopes are ambiguous. -/
def merge (family : Family) : List Item → List Item → Except PyError (List Item)
  | seen, [] => .ok seen
  | seen, item :: items =>
    match seen.find? fun s => pyEqList (keyOf family s) (keyOf family item) with
    | some s => if pyEqDict s item then merge family seen items else .error .ambiguousScopes
    | Option.none => merge family (seen ++ [item]) items

/-- An item put in its place. -/
def insertSorted {α : Type} (lt : α → α → Except PyError Bool) (a : α) : List α → Except PyError (List α)
  | [] => .ok [a]
  | b :: l => do if ← lt b a then return b :: (← insertSorted lt a l) else return a :: b :: l

/-- `list.sort`. For items that `<` orders totally every stable sort gives this. -/
def sort {α : Type} (lt : α → α → Except PyError Bool) : List α → Except PyError (List α)
  | [] => .ok []
  | a :: l => do insertSorted lt a (← sort lt l)

/-- The sorted items of a read, in its direction. -/
def sorted (family : Family) (params : Params) (conditions : List Clause) (records : List (Record family)) :
    Except PyError (List Item) := do
  let items ← merge family [] (matching params.scope conditions records)
  let items := match params.index with
    | some index => items.filter fun item => (get item index.order).any fun v => !pyEq v .none
    | Option.none => items
  let items ← sort (fun a b => pyLtList (position family params.index a) (position family params.index b)) items
  return if params.descending then items.reverse else items

/-- The position a cursor stands for. -/
def mark (family : Family) (index : Option Index) (items : List Item) (start : Item) :
    Except PyError (List PyValue) :=
  let order := ordering family index
  if order.all fun k => (get start k).isSome then .ok (order.filterMap (get start))
  else
    -- a cursor without the index key can only be placed by its item
    match items.find? fun item => (family.key.map Prod.fst).all fun k =>
      pyEq ((get item k).getD .none) ((get start k).getD .none) with
    | some found => .ok (position family index found)
    | Option.none => .error .cursorLacksIndexKey

/-- The items after a cursor; no cursor and an empty one are before all items. -/
def after (family : Family) (params : Params) (start : Option Item) (items : List Item) :
    Except PyError (List Item) :=
  match start with
  | Option.none | some [] => .ok items
  | some start => do
    let mark ← mark family params.index items start
    items.filterM fun item =>
      let here := position family params.index item
      if params.descending then pyLtList here mark else pyLtList mark here

/-- `LastEvaluatedKey` of a page that ends with the item. -/
def lastKey (family : Family) (index : Option Index) (item : Item) : Item :=
  let names := family.key.map Prod.fst ++ (index.map fun i => [i.hash, i.order]).getD []
  names.filterMap fun name => (get item name).map fun v => (name, v)

/-- `_read` on the rows served when its statement runs, before a projection. -/
def read (family : Family) (params : Params) (start : Option Item) (records : List (Record family)) :
    Except PyError Page := do
  let conditions ← params.conditions
  conditions.forM Clause.bind
  let items ← sorted family params conditions records
  let items ← after family params start items
  if params.limit < 1 then .error .invalidLimit
  let page := items.take params.limit
  let filters ← clauses params.filter params.names params.values
  return {
    items := page.filter fun item => filters.all fun c => c.holds item
    scannedCount := page.length
    lastEvaluatedKey :=
      if params.limit < items.length then page.getLast?.map (lastKey family params.index) else Option.none }

/-- A read followed page by page: the page that starts at each cursor sees the rows served then. It has not ended
when the fuel is out. -/
def follow (family : Family) (params : Params) (served : ℕ → List (Record family)) :
    ℕ → ℕ → Option Item → Except PyError (Option (List Page))
  | 0, _, _ => .ok Option.none
  | fuel + 1, i, start => do
    let page ← read family params start (served i)
    match page.lastEvaluatedKey with
    | Option.none => return some [page]
    | some key => return (← follow family params served fuel (i + 1) (some key)).map (page :: ·)

end Polis.Delphi.Resource
