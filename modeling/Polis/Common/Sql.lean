import Polis.Common.Json

/-!
# Conditions of SQL

A condition is true, false or NULL, or its evaluation raises an error. A server may evaluate the operands of
AND and OR in any order, so here an error of either one is an error of the whole; CASE alone evaluates a
branch only when it is taken. A condition without an error here has none in any order.
-/

namespace Polis.Sql

/-- The evaluation raises an error. -/
inductive Fault
  | raised
deriving DecidableEq, Repr

/-- A value that may be NULL, or an error. -/
abbrev Value (α : Type) := Except Fault (Option α)

abbrev Cond := Value Bool

/-! ## Connectives -/

/-- AND of values without an error. -/
def conj : Option Bool → Option Bool → Option Bool
  | some false, _ | _, some false => some false
  | some true, some true => some true
  | _, _ => none

/-- OR of values without an error. -/
def disj : Option Bool → Option Bool → Option Bool
  | some true, _ | _, some true => some true
  | some false, some false => some false
  | _, _ => none

def and3 (p q : Cond) : Cond := p.bind fun a => q.map (conj a)

def or3 (p q : Cond) : Cond := p.bind fun a => q.map (disj a)

/-- A chain of AND. -/
def all3 (ps : List Cond) : Cond := ps.foldr and3 (.ok (some true))

/-- `CASE WHEN c THEN p ELSE q END` -/
def caseWhen {α : Type} (c : Cond) (p q : Value α) : Value α :=
  c.bind fun b => if b = some true then p else q

/-- `COALESCE(v, x)` -/
def coalesce {α : Type} (v : Value α) (x : α) : Value α := v.map fun a => some (a.getD x)

/-- What the condition is for each row of a set. -/
def evaluate {α : Type} (p : α → Cond) : List α → Except Fault (List (Option Bool))
  | [] => .ok []
  | a :: l => (p a).bind fun b => (evaluate p l).map (b :: ·)

/-- `EXISTS (SELECT 1 FROM set WHERE p)` -/
def exists3 {α : Type} (set : Except Fault (List α)) (p : α → Cond) : Cond :=
  set.bind fun l => (evaluate p l).map fun bs => some (bs.any (· = some true))

/-- `NOT EXISTS (SELECT 1 FROM set WHERE p)` -/
def notExists {α : Type} (set : Except Fault (List α)) (p : α → Cond) : Cond :=
  (exists3 set p).map (·.map not)

/-! ## Comparisons -/

section Comparisons

variable {α : Type} [DecidableEq α]

/-- `a = b` -/
def eq3 (a b : Option α) : Cond := .ok (a.bind fun x => b.map fun y => x = y)

/-- `a <> b` -/
def ne3 (a b : Option α) : Cond := .ok (a.bind fun x => b.map fun y => x ≠ y)

/-- `a IS DISTINCT FROM b` -/
def isDistinctFrom (a b : Option α) : Cond := .ok (some (a ≠ b))

end Comparisons

/-- `a IS NOT NULL` -/
def isNotNull {α : Type} (a : Option α) : Cond := .ok (some a.isSome)

/-! ## jsonb -/

section Jsonb

abbrev Jsonb := Json Decimal

def jsonb_typeof : Option Jsonb → Option String
  | none => none
  | some .null => some "null"
  | some (.bool _) => some "boolean"
  | some (.number _) => some "number"
  | some (.string _) => some "string"
  | some (.array _) => some "array"
  | some (.object _) => some "object"

/-- `v->key` -/
def arrow (v : Option Jsonb) (key : String) : Option Jsonb :=
  match v with
  | some (.object m) => m.lookup key
  | _ => none

def jsonb_array_length : Option Jsonb → Value ℕ
  | none => .ok none
  | some (.array a) => .ok (some a.length)
  | some _ => .error .raised

/-- `jsonb_array_elements`, which has no rows for NULL. -/
def jsonb_array_elements : Option Jsonb → Except Fault (List Jsonb)
  | none => .ok []
  | some (.array a) => .ok a
  | some _ => .error .raised

/-- The values of `jsonb_each`. -/
def jsonb_each : Option Jsonb → Except Fault (List Jsonb)
  | none => .ok []
  | some (.object m) => .ok (m.map Prod.snd)
  | some _ => .error .raised

/-- `v = '{}'::jsonb` -/
def isEmptyObject : Option Jsonb → Cond
  | none => .ok none
  | some (.object []) => .ok (some true)
  | some _ => .ok (some false)

/-- `(v->>key)::numeric` at the value itself; `numericIn` reads the text of a string. -/
def numeric (numericIn : String → Option ℚ) : Option Jsonb → Value ℚ
  | none | some .null => .ok none
  | some (.number d) => .ok (some d.value)
  | some (.string s) => match numericIn s with
      | some q => .ok (some q)
      | none => .error .raised
  | some _ => .error .raised

end Jsonb

/-! ## Truth -/

/-- The condition is true. -/
def Holds (c : Cond) : Prop := c = .ok (some true)

instance (c : Cond) : Decidable (Holds c) := inferInstanceAs (Decidable (c = _))

section Truth

variable {p q : Cond} {ps : List Cond}

end Truth

/-! ## Sets of rows -/

section Sets

variable {α : Type} {p : α → Cond} {l : List α}

end Sets

end Polis.Sql
