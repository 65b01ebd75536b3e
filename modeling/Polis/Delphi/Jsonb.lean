import Polis.Common.JsonText
import Polis.Delphi.Manifest

/-!
# Texts as jsonb reads them

What `text::jsonb` gives: a string must not hold U+0000, a number is a `numeric`, and the last member of a
key stays.
-/

namespace Polis.Delphi

open JsonText

mutual

/-- A value whose numbers are texts. -/
def ofJson : Polis.Json String → Json
  | .null => .null
  | .bool b => .bool b
  | .number n => .number n
  | .string s => .string s
  | .array a => .array (ofItems a)
  | .object m => .object (ofMembers m)

def ofItems : List (Polis.Json String) → List Json
  | [] => []
  | v :: a => ofJson v :: ofItems a

def ofMembers : List (String × Polis.Json String) → List (String × Json)
  | [] => []
  | (k, v) :: m => (k, ofJson v) :: ofMembers m

end

@[simp] theorem ofItems_eq (a : List (Polis.Json String)) : ofItems a = a.map ofJson := by
  induction a with
  | nil => rfl
  | cons v a ih => rw [ofItems, ih, List.map_cons]

@[simp] theorem ofMembers_eq (m : List (String × Polis.Json String)) :
    ofMembers m = m.map (Prod.map id ofJson) := by
  induction m with
  | nil => rfl
  | cons p m ih =>
    rw [ofMembers, ih, List.map_cons]
    rfl

/-- `untranslatable_character` for `\u0000`, and `invalid_text_representation` for half a pair. -/
def jsonbString (s : Str) : Except JsonError String := do
  let t ← decode .invalidText (.error (.other "unsupported Unicode escape sequence")) s
  pure (.ofList t)

/-- What the server does besides reading JSON. -/
structure Server where
  /-- `encode(sha256(convert_to(line,'UTF8')),'hex')` -/
  sha256Hex : String → String
  /-- `numeric_in`, with the text that `numeric_out` gives back. -/
  numeric : Number → Except JsonError String
  /-- The error of a text that is not JSON. -/
  malformed : String → JsonError
  /-- The text of an array or an object. -/
  jsonText : Json → String

namespace Server

variable (p : Server)

/-- `text::jsonb` -/
def jsonb (text : String) : Except JsonError Json :=
  match parse text.toList with
  | none => .error (p.malformed text)
  | some t => (read jsonbString p.numeric t).map ofJson

def builtins : Builtins := ⟨p.sha256Hex, p.jsonb, p.jsonText⟩

/-- The number is in the range of `numeric`. -/
def holds (n : Number) : Bool := (p.numeric n).isOk

/-- The text of a number that is in range. -/
def numberText (n : Number) : String := ((p.numeric n).toOption).getD ""

/-- A string escapes U+0000, or a number is out of range. -/
def representable (text : String) : Bool :=
  (parse text.toList).any (·.all (fun s => !escapesNul s) p.holds)

end Server

end Polis.Delphi
