import Polis.Common.Draw
import Polis.Common.Json
import Polis.Serving.JsObject

/-!
# The weighted draw of the next statement

Both servers add up the priorities of the candidates in order and take the first one whose running total is
above a random number. They differ in what a priority may be: Rust refuses what JavaScript would coerce. The
arithmetic is a parameter, so that the draw can be looked at with real numbers and with doubles alike.

Reference: `queue-rs/polis-api/src/next_comment.rs` (`select`), `server/src/nextComment.ts`
(`selectProbabilistically`).
-/

namespace Polis.NextComment

open Js

/-- The arithmetic of `f64` and of JavaScript's numbers. -/
structure Arith (F : Type*) where
  zero : F
  one : F
  add : F → F → F
  mul : F → F → F
  lt : F → F → Bool
  isZero : F → Bool
  isNaN : F → Bool
  isFinite : F → Bool
  isNaN_of_isFinite : ∀ x, isFinite x = true → isNaN x = false

/-- Exact arithmetic. -/
def Arith.exact (K : Type*) [Field K] [LinearOrder K] : Arith K where
  zero := 0
  one := 1
  add := (· + ·)
  mul := (· * ·)
  lt x y := decide (x < y)
  isZero x := decide (x = 0)
  isNaN _ := false
  isFinite _ := true
  isNaN_of_isFinite _ _ := rfl

variable {F : Type*} (A : Arith F)

/-- `get` -/
def get (priorities : Obj (Json F)) (tid : ℤ) : Option (Json F) := priorities.lookup (toString tid)

/-! ## Rust -/

/-- The weight of a candidate in `select`. -/
def weight (priorities : Option (Obj (Json F))) (tid : ℤ) : Except String F :=
  match priorities.bind (get · tid) with
  | none | some .null | some (.bool false) => .ok A.one
  | some (.number n) =>
    if A.isZero n then .ok A.one else if A.isFinite n then .ok n else .error "unsupported priority type"
  | some _ => .error "unsupported priority type"

/-- One turn of the loop over the candidates. -/
def addWeight (priorities : Option (Obj (Json F))) (s : List F × F) (tid : ℤ) : Except String (List F × F) :=
  (weight A priorities tid).map fun w => (s.1 ++ [A.add s.2 w], A.add s.2 w)

/-- `select` -/
def select (tids : List ℤ) (priorities : Option (Obj (Json F))) (unit : F) : Except String (ℕ × F) := do
  let (cumulative, total) ← tids.foldlM (addWeight A priorities) ([], A.zero)
  let random := A.mul unit total
  match cumulative.findIdx? (A.lt random) with
  | some selected => return (selected, random)
  | none => throw "no weighted candidate"

/-! ## Node -/

/-- `NextCommentCandidate` -/
structure Candidate (F : Type*) where
  tid : ℤ
  randomN : Option F := none

/-- What a sum in JavaScript gives: a number, or a text once something else than a number is added. -/
inductive Sum (F : Type*)
  | number (n : F)
  | text (s : String)

/-- `Number::toString` and the number of a text. -/
structure Printing (F : Type*) where
  print : F → String
  parse : String → F

variable (P : Printing F)

/-- `ToString`; the items of an array are joined with commas, and null is nothing there. -/
def toText : Json F → String
  | .null => "null"
  | .bool b => if b then "true" else "false"
  | .number n => P.print n
  | .string s => s
  | .array items => ",".intercalate (texts items)
  | .object _ => "[object Object]"
where
  texts : List (Json F) → List String
    | [] => []
    | .null :: items => "" :: texts items
    | v :: items => toText v :: texts items

/-- `+` -/
def plus : Sum F → Json F → Sum F
  | .number n, .null => .number (A.add n A.zero)
  | .number n, .bool b => .number (A.add n (if b then A.one else A.zero))
  | .number n, .number m => .number (A.add n m)
  | .number n, v => .text (P.print n ++ toText P v)
  | .text s, v => .text (s ++ toText P v)

/-- `ToNumber` -/
def Sum.toNumber : Sum F → F
  | .number n => n
  | .text s => P.parse s

/-- `ToBoolean` -/
def isTruthy : Json F → Bool
  | .null => false
  | .bool b => b
  | .number n => !A.isZero n && !A.isNaN n
  | .string s => s ≠ ""
  | .array _ | .object _ => true

/-- `priorities[comment.tid] || 1` -/
def priority (priorities : Obj (Json F)) (tid : ℤ) : Json F :=
  match get priorities tid with
  | some v => if isTruthy A v then v else .number A.one
  | none => .number A.one

/-- One turn of the reduction. -/
def addCandidate (priorities : Obj (Json F)) (o : Sum F × List (Sum F × Candidate F)) (comment : Candidate F) :
    Sum F × List (Sum F × Candidate F) :=
  let lookup_val := plus A P o.1 (priority A priorities comment.tid)
  (lookup_val, o.2 ++ [(lookup_val, comment)])

/-- `selectProbabilistically`, with the random number of the call. -/
def selectProbabilistically (comments : List (Candidate F)) (priorities : Obj (Json F)) (random : F) :
    Option (Candidate F) :=
  let (lastCount, lookup) := comments.foldl (addCandidate A P priorities) (.number A.zero, [])
  let randomN := A.mul random (lastCount.toNumber P)
  (lookup.find? fun x => A.lt randomN (x.1.toNumber P)).map fun x => { x.2 with randomN := some randomN }

end Polis.NextComment
